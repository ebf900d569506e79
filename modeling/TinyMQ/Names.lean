/-
Topic names: the three validators that guard them, and their file names.

`publishCore` checks a length and `validTopicRegex`, `Consume` and `AddSpy`
check `IsValidTopicName`, storage checks `isSafePath`; the rules differ, and
`validators_agree_iff` says on which of the names `Publish` accepts they
give the same answer, for the name and for its dead letter queue.

A log file is named after its topic by two unescaped substitutions and the
recovery at startup undoes them; `decodeStem_topicToFilename_iff` says for
which topics it gets the name back.
-/
import TinyMQ.Data
import TinyMQ.Lib.Text

namespace TinyMQ

open List Text

variable {s : GoString}

/-! ## The literals of this module, as bytes -/

theorem ascii_slash : ascii "/" = [47] := by decide
theorem ascii_at : ascii "@" = [64] := by decide
theorem ascii_dot : ascii "." = [46] := by decide
theorem ascii_dots : ascii ".." = [46, 46] := by decide
theorem ascii_dlq : ascii ".dlq" = 46 :: [100, 108, 113] := by decide
theorem ascii_log : ascii ".log" = 46 :: [108, 111, 103] := by decide
theorem ascii_b : ascii "_b_" = [95, 98, 95] := by decide
theorem ascii_a : ascii "_a_" = [95, 97, 95] := by decide
theorem ascii_bSlash : ascii "_b/" = [95, 98, 47] := by decide

/-! ## Validators -/

/-- The character class `[a-zA-Z0-9._:/\-]`. -/
def isTopicByte (c : UInt8) : Bool :=
  (97 ≤ c && c ≤ 122) || (65 ≤ c && c ≤ 90) || (48 ≤ c && c ≤ 57) ||
    c == 46 || c == 95 || c == 58 || c == 45 || c == 47

/-- `^[a-zA-Z0-9._:/\-]+$`. -/
def validTopicRegex (s : GoString) : Bool := s ≠ [] && s.all isTopicByte

/-- `^([a-zA-Z0-9._:/\-]+\*|\*)$`: any number of topic bytes and one star. -/
def validWildcardRegex (s : GoString) : Bool := s.getLast? == some 42 && s.dropLast.all isTopicByte

/-- The name checks of `publishCore`. -/
def publishAccepts (name : GoString) : Bool :=
  decide (name.length ≠ 0 ∧ name.length ≤ 255) && validTopicRegex name

def isValidTopicName (name : GoString) : Bool :=
  if contains name (ascii "..") then false
  else validTopicRegex name || validWildcardRegex name

/-- `nil`, or the error. -/
def isSafePath (topic : GoString) : Option GoString :=
  if contains topic (ascii "..") || contains topic (ascii "\\") ||
      hasPrefix topic (ascii "/") || hasPrefix topic (ascii "@") then
    some (ascii "unsafe topic name detected, path traversal aborted")
  else none

/-- The topic `Requeue` derives for a message that failed too often. -/
def dlqName (topic : GoString) : GoString := topic ++ ascii ".dlq"

theorem isTopicByte_ne (hc : isTopicByte c = true) (hd : isTopicByte d = false) : c ≠ d := by
  rintro rfl
  simp [hc] at hd

theorem validTopicRegex_iff : validTopicRegex s = true ↔ s ≠ [] ∧ ∀ c ∈ s, isTopicByte c = true := by
  simp [validTopicRegex]

theorem not_mem_of_validTopicRegex (h : validTopicRegex s = true) (hd : isTopicByte d = false) : d ∉ s :=
  fun hm => isTopicByte_ne ((validTopicRegex_iff.mp h).2 d hm) hd rfl

theorem validTopicRegex_dlqName (h : validTopicRegex s = true) : validTopicRegex (dlqName s) = true := by
  rw [validTopicRegex_iff] at h ⊢
  refine ⟨by simp [dlqName, h.1], fun c hc => ?_⟩
  simp only [dlqName, mem_append] at hc
  rcases hc with hc | hc
  · exact h.2 c hc
  · have hall : (ascii ".dlq").all isTopicByte = true := by decide
    exact List.all_eq_true.mp hall c hc

theorem isValidTopicName_iff (h : validTopicRegex s = true) : isValidTopicName s = true ↔ ¬ ascii ".." <:+: s := by
  simp [isValidTopicName, h]

/-- On a name of topic bytes, `isSafePath` looks for `..` and a leading `/`. -/
theorem isSafePath_eq_none_iff (h : validTopicRegex s = true) :
    isSafePath s = none ↔ ¬ ascii ".." <:+: s ∧ ¬ ascii "/" <+: s := by
  have hb : ¬ ascii "\\" <:+: s := fun hi =>
    not_mem_of_validTopicRegex h (d := 92) (by decide) (hi.subset (by decide))
  have ha : ¬ ascii "@" <+: s := fun hp =>
    not_mem_of_validTopicRegex h (d := 64) (by decide) (hp.subset (by decide))
  simp [isSafePath, hb, ha]

theorem dots_infix_dlqName : ascii ".." <:+: dlqName s ↔ ascii ".." <:+: s ∨ ascii "." <:+ s := by
  have hq : ¬ ([46, 46] : GoString) <:+: 46 :: [100, 108, 113] := by decide
  rw [dlqName, ascii_dlq, ascii_dots, ascii_dot, double_infix_append]
  simp only [hq, or_false]

theorem slash_prefix_dlqName (h : s ≠ []) : ascii "/" <+: dlqName s ↔ ascii "/" <+: s := by
  obtain ⟨c, s, rfl⟩ := exists_cons_of_ne_nil h
  simp [dlqName, ascii_slash]

/-- **When the validators agree** on a name `Publish` accepts and on its
dead letter queue: when it contains no `..`, does not start with `/` and
does not end with a dot. -/
theorem validators_agree_iff (h : publishAccepts s = true) : ((isValidTopicName s = true ∧ isSafePath s = none) ∧
      (isValidTopicName (dlqName s) = true ∧ isSafePath (dlqName s) = none)) ↔
    ¬ ascii ".." <:+: s ∧ ¬ ascii "/" <+: s ∧ ¬ ascii "." <:+ s := by
  simp only [publishAccepts, Bool.and_eq_true] at h
  have hv := h.2
  have hd := validTopicRegex_dlqName hv
  rw [isValidTopicName_iff hv, isValidTopicName_iff hd, isSafePath_eq_none_iff hv, isSafePath_eq_none_iff hd,
    dots_infix_dlqName, slash_prefix_dlqName (validTopicRegex_iff.mp hv).1, not_or]
  tauto

/-! ## File names -/

def topicToFilename (topic : GoString) : GoString :=
  replaceAll (replaceAll topic (ascii "/") (ascii "_b_")) (ascii "@") (ascii "_a_")

def filenameToTopic (filename : GoString) : GoString :=
  replaceAll (replaceAll filename (ascii "_b_") (ascii "/")) (ascii "_a_") (ascii "@")

/-- The last component of `logFilePath`. -/
def logFilename (topic : GoString) : GoString := topicToFilename topic ++ ascii ".log"

/-- `filepath.Join` of a clean directory and a file name. -/
def joinPath (dir name : GoString) : GoString := if dir = [] then name else dir ++ ascii "/" ++ name

def logFilePath (dataDir topic : GoString) : GoString := joinPath dataDir (logFilename topic)

/-- The file of the encoding before `_b_`. -/
def legacyFilename (topic : GoString) : GoString :=
  replaceAll topic (ascii "/") (ascii "@") ++ ascii ".log"

/-- `filepath.Ext`: from the last dot on. -/
def ext (name : GoString) : GoString :=
  if (46 : UInt8) ∈ name then 46 :: (name.reverse.takeWhile (· ≠ 46)).reverse else []

/-- How `main` reads a topic off the stem of a log file's name. -/
def decodeStem (encodedName : GoString) : GoString :=
  if contains encodedName (ascii "_b_") || contains encodedName (ascii "_a_") then
    filenameToTopic encodedName
  else replaceAll encodedName (ascii "@") (ascii "/")

def trimSuffix (s suffix : GoString) : GoString :=
  if hasSuffix s suffix then s.take (s.length - suffix.length) else s

/-- The topics `main` recovers from the files of the data directory. -/
def topicsToRecover (files : List GoString) : List GoString :=
  (files.filter fun name => ext name = ascii ".log").map fun name =>
    decodeStem (trimSuffix name (ascii ".log"))

/-- A topic whose file name decodes to itself: nothing in it looks like a
code, and no `_b` stands before a slash. -/
def FileNameSafe (topic : GoString) : Prop :=
  ¬ ascii "_b_" <:+: topic ∧ ¬ ascii "_a_" <:+: topic ∧ ¬ ascii "_b/" <:+: topic

instance : DecidablePred FileNameSafe := fun _ => inferInstanceAs (Decidable (_ ∧ _ ∧ _))

theorem topicToFilename_eq_expand (h : (64 : UInt8) ∉ t) : topicToFilename t = expand 95 98 47 t := by
  have hs : replaceAll t (ascii "/") (ascii "_b_") = expand 95 98 47 t := by
    rw [ascii_slash, ascii_b, replaceAll_singleton]
    rfl
  have ha : ¬ ascii "@" <:+: expand 95 98 47 t := by
    intro hi
    have hm : (64 : UInt8) ∈ expand 95 98 47 t := hi.subset (by decide)
    simp only [expand, mem_flatMap] at hm
    obtain ⟨c, hc, hm⟩ := hm
    split at hm
    · simp at hm
    · simp only [mem_singleton] at hm
      exact h (hm ▸ hc)
  rw [topicToFilename, hs, replaceAll_of_not_contains ha]

/-- Undoing both substitutions gives the topic back exactly when it is
`FileNameSafe`. -/
theorem filenameToTopic_expand_iff (h : (64 : UInt8) ∉ t) :
    filenameToTopic (expand 95 98 47 t) = t ↔ FileNameSafe t := by
  have hb := expand_undone_iff (u := (95 : UInt8)) (x := 98) (s := 47) (by decide) (by decide)
    (by decide) t
  simp only [filenameToTopic, FileNameSafe, ascii_slash, ascii_at, ascii_b, ascii_a, ascii_bSlash]
  generalize replaceAll (expand 95 98 47 t) [95, 98, 95] [47] = r at hb ⊢
  constructor
  · intro hr
    -- The second substitution did nothing: it would have left an `@`.
    have ha : ¬ [95, 97, 95] <:+: r := fun hi =>
      h (hr ▸ mem_replaceAll_of_contains hi)
    rw [replaceAll_of_not_contains ha] at hr
    exact ⟨(hb.mp hr).1, hr ▸ ha, (hb.mp hr).2⟩
  · rintro ⟨h₁, h₂, h₃⟩
    rw [hb.mpr ⟨h₁, h₃⟩, replaceAll_of_not_contains h₂]

/-- **Which topics are recovered under their own name.** -/
theorem decodeStem_topicToFilename_iff (ht : validTopicRegex t = true) :
    decodeStem (topicToFilename t) = t ↔ FileNameSafe t := by
  have h64 := not_mem_of_validTopicRegex ht (d := 64) (by decide)
  rw [topicToFilename_eq_expand h64, decodeStem]
  split
  · exact filenameToTopic_expand_iff h64
  · next hc =>
    -- No code in the stem, so there was no slash and the stem is the topic.
    simp only [Bool.or_eq_true, Text.contains_iff, not_or] at hc
    have hs : (47 : UInt8) ∉ t := fun hm => hc.1 (Text.code_infix_expand hm)
    rw [Text.expand_of_not_mem hs] at hc ⊢
    have ha : ¬ ascii "@" <:+: t := fun hi => h64 (hi.subset (by decide))
    rw [Text.replaceAll_of_not_contains ha]
    simp only [FileNameSafe, true_iff]
    exact ⟨hc.1, hc.2, fun hi => hs (hi.subset (by decide))⟩

/-- The code of a byte in a file name. -/
def fileCode (c : UInt8) : GoString := if c = 47 then ascii "_b_" else if c = 64 then ascii "_a_" else [c]

theorem topicToFilename_eq_flatMap (t : GoString) : topicToFilename t = t.flatMap fileCode := by
  rw [topicToFilename, ascii_slash, ascii_at, replaceAll_singleton, replaceAll_singleton,
    flatMap_assoc]
  refine congrArg (fun f : UInt8 → GoString => t.flatMap f) (funext fun c => ?_)
  unfold fileCode
  split
  · decide
  · simp

theorem topicToFilename_dlqName (t : GoString) : topicToFilename (dlqName t) = topicToFilename t ++ ascii ".dlq" := by
  have hdlq : (ascii ".dlq").flatMap fileCode = ascii ".dlq" := by decide
  rw [topicToFilename_eq_flatMap, topicToFilename_eq_flatMap, dlqName, flatMap_append, hdlq]

theorem ascii_colons : ascii "::" = [58, 58] := by decide

theorem colons_infix_topicToFilename : ascii "::" <:+: topicToFilename t ↔ ascii "::" <:+: t := by
  rw [topicToFilename_eq_flatMap, ascii_colons]
  refine double_infix_flatMap (by decide) (fun c hc => ?_) t
  unfold fileCode
  split
  · decide
  · split
    · decide
    · simpa using Ne.symm hc

theorem colons_infix_dlqName : ascii "::" <:+: dlqName t ↔ ascii "::" <:+: t := by
  rw [dlqName, ascii_colons]
  exact double_infix_append_right (by decide)

theorem logFilePath_inj : logFilePath dir t = logFilePath dir u ↔ topicToFilename t = topicToFilename u := by
  simp only [logFilePath, joinPath, logFilename]
  split <;> simp

theorem ext_logFilename (t : GoString) : ext (logFilename t) = ascii ".log" := by
  simp only [ext, logFilename, ascii_log]
  rw [if_pos (by simp)]
  simp [List.takeWhile]

theorem trimSuffix_logFilename (t : GoString) : trimSuffix (logFilename t) (ascii ".log") = topicToFilename t := by
  simp [trimSuffix, logFilename]

theorem topicsToRecover_logFilename (h : ∀ t ∈ ts, validTopicRegex t = true ∧ FileNameSafe t) :
    topicsToRecover (ts.map logFilename) = ts := by
  have hf : (ts.map logFilename).filter (fun name => ext name = ascii ".log") = ts.map logFilename := by
    rw [filter_eq_self]
    intro name hn
    obtain ⟨t, -, rfl⟩ := List.mem_map.mp hn
    simp [ext_logFilename]
  rw [topicsToRecover, hf, List.map_map]
  conv_rhs => rw [← List.map_id ts]
  refine map_congr_left fun t ht => ?_
  rw [Function.comp_apply, trimSuffix_logFilename]
  exact (decodeStem_topicToFilename_iff (h t ht).1).mpr (h t ht).2

end TinyMQ
