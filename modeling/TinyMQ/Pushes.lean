/-
From a publish to the handlers of the SDK.

A message goes to the spies of the topics that match its own (`Aims`), a
goroutine of the server pushes what its spy receives, and `readLoop` calls
the handler that is registered for the topic of the message: for a wildcard
there is none. On the way the payload is a JSON string once, and
`readLoop` decodes it if it looks like base64.

`payload_delivered_iff` says for which payloads a handler gets what was
published, `subscription_fires_iff` for which subscriptions and messages it
is called as it should be.
-/
import TinyMQ.Aims
import TinyMQ.Sdk
import TinyMQ.Spies

namespace TinyMQ

open List Option Function Broker Utf8

/-! ## The spies of a name -/

theorem TopicMove.mem_spies (h : TopicMove now b sec r t t') (hch : ch ∈ t'.spies) :
    ch ∈ t.spies ∨ ch = b.spyCount ∧ ∃ n, sec = .method (.addSpyAt r n) := by
  rcases h.shrinks_or with hshrink | hadd
  · exact .inl (hshrink.spies.subset hch)
  · cases hadd with
    | store hdel hmax hsub hw hsp | requeue hnone hperm hw hsp | register hnone hsub hw hsp =>
      exact .inl (hsp ▸ hch)
    | spy heq =>
      subst heq
      exact (mem_append.mp hch).imp id fun hnew => ⟨mem_singleton.mp hnew, _, rfl⟩

namespace World

variable {w w' w₀ w₁ : World} {l : WorldLabel} {s : GoString} {ch : Spy} {i : Nat}
  {limits policy hooked storage env chans}
  {now : Time}

theorem mem_spies_step (hs : w.step l = some w') (ht' : w'.broker.heap[r]? = some t') (hch : ch ∈ t'.spies) :
    (∃ t, w.broker.heap[r]? = some t ∧ ch ∈ t.spies ∧ t'.name = t.name) ∨
      ch = w.broker.spyCount ∧ ∃ n, w.sectionOf l = some (.method (.addSpyAt r n)) := by
  have hheap := step_heap hs
  rcases hheap.origin ht' with ⟨t, ht⟩ | ⟨-, name, policy, retention, rfl⟩
  · obtain ⟨t₁, ht₁, hcase⟩ := hheap.object ht
    cases ht₁.symm.trans ht'
    rcases hcase with rfl | ⟨-, sec, hsec, hmove⟩ | ⟨rfl, -⟩
    · exact .inl ⟨_, ht, hch, rfl⟩
    · rcases hmove.mem_spies hch with hold | ⟨hnew, n, heq⟩
      · exact .inl ⟨t, ht, hold, hmove.static.1⟩
      · exact .inr ⟨hnew, n, heq ▸ hsec⟩
    · exact .inl ⟨t, ht, hch, rfl⟩
  · exact absurd hch not_mem_nil

/-- What holds of spies in every run. -/
structure Watching (w : World) : Prop where
  aims : w.Aims
  spies : w.SpiesOpen
  spied : ∀ x ∈ w.past.spied, x.1 < w.broker.spyCount

theorem Watching.step (h : w.Watching) (hs : w.step l = some w') : w'.Watching where
  aims := h.aims.step hs
  spies := h.spies.step hs
  spied x hx := by
    refine Nat.lt_of_lt_of_le ?_ (step_heap hs).spyCount_le
    rw [spied_step hs] at hx
    rcases mem_append.mp hx with hold | hnew
    · exact h.spied x hold
    · obtain ⟨-, r, t, ht, hch, -⟩ := h.aims.spySends hnew
      exact h.spies.known _ (mem_append_left _ (mem_spies ht hch))

theorem watching_of_run {ok : World → WorldLabel → Prop}
    (hrun : Lts.Run World.step ok (init now (.new limits policy hooked storage env chans)) w) : w.Watching :=
  hrun.invariant (I := Watching) (fun _ _ _ hI _ => hI.step) {
    aims := .init now limits policy hooked storage env chans
    spies := ⟨nodup_nil, fun _ hch => absurd hch not_mem_nil, rfl⟩
    spied := fun _ hx => absurd hx not_mem_nil }

/-- The channel is a spy of topics of this name and of no others, and was
sent only what they are to see. -/
structure SpyOf (w : World) (s : GoString) (ch : Spy) : Prop where
  known : ch < w.broker.spyCount
  listed : ∀ (r : TopicRef) (t : Topic), w.broker.heap[r]? = some t → ch ∈ t.spies → t.name = s
  sent : ∀ m, (ch, m) ∈ w.past.spied → validTopicRegex m.topic = true ∧ nameMatches s m.topic = true

theorem SpyOf.step (h : w.SpyOf s ch) (hw : w.Watching) (hs : w.step l = some w') : w'.SpyOf s ch where
  known := Nat.lt_of_lt_of_le h.known (step_heap hs).spyCount_le
  listed r t' ht' hch := by
    rcases mem_spies_step hs ht' hch with ⟨t, ht, hch, hname⟩ | ⟨heq, -⟩
    · exact hname.trans (h.listed r t ht hch)
    · exact absurd heq (Nat.ne_of_lt h.known)
  sent m hm := by
    rw [spied_step hs] at hm
    rcases mem_append.mp hm with hold | hnew
    · exact h.sent m hold
    · obtain ⟨hvalid, r, t, ht, hch, hmatch⟩ := hw.aims.spySends hnew
      exact ⟨hvalid, h.listed r t ht hch ▸ hmatch⟩

/-- Where an `AddSpy` of this name is. -/
inductive AddingSpy (w : World) (s : GoString) : MethodPc → Prop
  | enter : AddingSpy w s (.addSpy s)
  | found {t} : AddingSpy w s (.addSpyAt t s)
  | added {ch : Spy} : w.SpyOf s ch → AddingSpy w s (.done (.spy ch))
  | failed {e} : AddingSpy w s (.done (.error e))

theorem AddingSpy.step (h : w.AddingSpy s pc) (hw : w.Watching) (hs : w.step l = some w') : w'.AddingSpy s pc := by
  cases h with
  | enter => exact .enter
  | found => exact .found
  | added hspy => exact .added (hspy.step hw hs)
  | failed => exact .failed

theorem AddingSpy.run (h : w.AddingSpy s pc) (hw : w.Watching) (hpc : w.methods i = some pc)
    (hs : w.step (.run i) = some w') : ∃ pc', w'.methods i = some pc' ∧ w'.AddingSpy s pc' := by
  have hnames := keepsNames_step hs
  have hcount := (step_heap hs).spyCount_le
  have hsec : w.sectionOf (.run i) = some (.method pc) := by simp [sectionOf, hpc]
  have hspies := fun (r : TopicRef) (t' : Topic) ht' (hch : w.broker.spyCount ∈ t'.spies) =>
    mem_spies_step (r := r) hs ht' hch
  have hpast := spied_step hs
  obtain ⟨pc', o, hpc', ho, rfl⟩ := step_run hs
  cases hpc.symm.trans hpc'
  refine ⟨o.next, by simp, ?_⟩
  cases h with
  | enter =>
    simp only [MethodPc.step] at ho
    split at ho
    · cases ho; exact .failed
    split at ho
    next => cases ho; exact .failed
    next => cases ho; exact .found
  | @found t =>
    obtain ⟨⟨ch, b'⟩, hb, rfl⟩ := map_eq_some_iff.mp ho
    obtain ⟨topic, ht, hb⟩ := map_eq_some_iff.mp hb
    cases hb
    refine .added ⟨Nat.lt_succ_self _, fun r t' ht' hch => ?_, fun m hm => ?_⟩
    · rcases hspies r t' ht' hch with ⟨t₀, ht₀, hold, -⟩ | ⟨-, n, hsec'⟩
      · -- The channel is new.
        exact absurd (hw.spies.known _ (mem_append_left _ (mem_spies ht₀ hold))) (Nat.lt_irrefl _)
      · cases hsec.symm.trans hsec'
        have hname' := hnames _ _ (hw.aims.methods hpc)
        rw [nameOf, ht'] at hname'
        exact some.inj hname'
    · rw [hpast] at hm
      rcases mem_append.mp hm with hold | hnew
      · exact absurd (hw.spied _ hold) (Nat.lt_irrefl _)
      · exact absurd hnew not_mem_nil
  | added hspy | failed => cases ho

/-- **What `AddSpy` returns is a spy of its topic.** -/
theorem spyOf_of_run (hrun₀ : Lts.Run World.step (fun _ _ => True)
    (init now (.new limits policy hooked storage env chans)) w₀)
    (hstart : w₀.step (.start i (.addSpy s)) = some w₁) (hrun : Lts.Run World.step (fun _ _ => True) w₁ w)
    (hdone : w.methods i = some (.done (.spy ch))) : w.SpyOf s ch := by
  have hw₀ := watching_of_run hrun₀
  have hinv : w.Watching ∧ ∃ pc, w.methods i = some pc ∧ w.AddingSpy s pc := by
    refine hrun.invariant (I := fun w => w.Watching ∧ ∃ pc, w.methods i = some pc ∧ w.AddingSpy s pc) ?_
      ⟨hw₀.step hstart, ?_⟩
    · rintro w₂ l w₃ ⟨hw, pc, hpc, hadd⟩ - hs
      refine ⟨hw.step hs, ?_⟩
      by_cases hl : l = .run i
      · subst hl
        exact hadd.run hw hpc hs
      · rcases methods_of_step hs hl with hsame | ⟨hnone, -⟩
        · exact ⟨pc, hsame.trans hpc, hadd.step hw hs⟩
        · cases hpc.symm.trans hnone
    · obtain ⟨-, -, rfl⟩ := step_start hstart
      exact ⟨_, by simp [Method.entry], .enter⟩
  obtain ⟨-, pc, hpc, hadd⟩ := hinv
  cases hpc.symm.trans hdone
  cases hadd
  assumption

end World

/-! ## The payload of a publish -/

/-- All that the call makes has this payload. -/
def Pc.Carries (payload : List UInt8) : Pc → Prop
  | .publish _ a (.onPublish _ _ m) => a.payload = payload ∧ m.payload = payload
  | .publish _ a (.store _ _ m _) => a.payload = payload ∧ m.payload = payload
  | .publish _ a _ => a.payload = payload
  | .push p _ => p.msg.payload = payload
  | _ => True

theorem Pc.Flow.carries {pc : Pc} {next payload} (h : pc.Flow now b next)
    (hp : pc.Carries payload) : next.All (Pc.Carries payload) := by
  cases h with
  | newMessage | call => exact ⟨hp, hp⟩
  | store => exact hp.2
  | ret => trivial
  | _ => exact hp

namespace World

variable {w w' w₀ w₁ : World} {l : WorldLabel} {i : Nat} {payload : List UInt8}

/-- Goroutine `i` runs a call with this payload, or has done so. -/
structure Carrying (w : World) (i : Nat) (payload : List UInt8) : Prop where
  methods : w.methods i = none
  used : w.sys.free i = false
  call : ∀ c, w.sys.calls i = some c → c.All (Pc.Carries payload)

theorem Carrying.of_same (h : w.Carrying i payload) (hm : w'.methods i = w.methods i)
    (hc : w'.sys.calls i = w.sys.calls i) (hr : w'.sys.results i = w.sys.results i) : w'.Carrying i payload where
  methods := hm.trans h.methods
  used := by simpa only [Sys.free, hc, hr] using h.used
  call c hcall := h.call c (hc ▸ hcall)

theorem Carrying.ne (h : w.Carrying i payload) (hfree : w.sys.free k = true) : i ≠ k := by
  rintro rfl
  rw [h.used] at hfree
  cases hfree

theorem Carrying.step (h : w.Carrying i payload) (hs : w.step l = some w') : w'.Carrying i payload := by
  cases l with
  | sys l =>
    obtain ⟨-, s, hsys, rfl⟩ := step_sys hs
    have hother : ∀ {s₁ : Sys} {k : Nat} {v : Call ⊕ Ret}, s = s₁.setCall k v → i ≠ k → s₁.calls = w.sys.calls →
        s₁.results = w.sys.results → s.calls i = w.sys.calls i ∧ s.results i = w.sys.results i := by
      intro s₁ k v hset hne hc hr
      rw [hset, Sys.setCall_calls_ne _ hne, Sys.setCall_results_ne _ hne, hc, hr]
      exact ⟨rfl, rfl⟩
    cases l with
    | tick d => cases hsys; exact h.of_same rfl rfl rfl
    | recv ch =>
      obtain ⟨m, rest, -, rfl⟩ := Sys.step_recv hsys
      exact h.of_same rfl rfl rfl
    | start k op =>
      simp only [Sys.step] at hsys
      split at hsys
      next hfree =>
        obtain ⟨hc, hr⟩ := hother (some.inj hsys).symm (h.ne hfree) rfl rfl
        exact h.of_same rfl hc hr
      next => cases hsys
    | fire k n =>
      obtain ⟨g, -, hsys⟩ := bind_eq_some_iff.mp hsys
      obtain ⟨c, -, hsys⟩ := bind_eq_some_iff.mp hsys
      split at hsys
      next hfree =>
        obtain ⟨hc, hr⟩ := hother (some.inj hsys).symm (h.ne hfree) rfl rfl
        exact h.of_same rfl hc hr
      next => cases hsys
    | run k =>
      obtain ⟨c, o, hc, ho, hset⟩ := Sys.step_run hsys
      by_cases hk : i = k
      · subst hk
        have hall := h.call c hc
        have hnext := (Pc.step_flow ho).carries (hall _ mem_cons_self)
        refine ⟨h.methods, ?_, fun c' hc' => ?_⟩
        · show s.free i = false
          rw [hset]
          cases Call.resume c.stack o.next <;> simp [Sys.setCall, Sys.free]
        · have hc' : s.calls i = some c' := hc'
          rw [hset] at hc'
          rcases Sys.setCall_calls hc' with ⟨-, heq⟩ | ⟨hne, -⟩
          · exact Call.all_resume heq hnext fun pc hpc => hall pc (mem_cons_of_mem _ hpc)
          · exact absurd rfl hne
      · obtain ⟨hc, hr⟩ := hother hset hk rfl rfl
        exact h.of_same rfl hc hr
  | start k m =>
    obtain ⟨hfree, -, rfl⟩ := step_start hs
    exact h.of_same (update_of_ne (h.ne hfree) _ _) rfl rfl
  | run k =>
    obtain ⟨pc, o, hpc, -, rfl⟩ := step_run hs
    have hk : i ≠ k := by
      rintro rfl
      rw [h.methods] at hpc
      cases hpc
    refine h.of_same (update_of_ne hk _ _) ?_ ?_
    · cases hp : o.call with
      | none => simp [afterMethod, hp]
      | some a => simp [afterMethod, hp, hk]
    · simp only [afterMethod]
      split
      · exact update_of_ne hk _ _
      · rfl
  | recvSpy ch =>
    obtain ⟨spyChans, rfl⟩ := step_recvSpy hs
    exact h.of_same rfl rfl rfl

/-- **What a publish sends to spies has its payload.** -/
theorem payload_of_run {a ch m} {ok : World → WorldLabel → Prop}
    (hstart : w₀.step (.sys (.start i (.publish a))) = some w₁) (hrun : Lts.Run World.step ok w₁ w)
    (hx : (ch, m) ∈ w.spySends (.sys (.run i))) : m.payload = a.payload := by
  have hinv : w.Carrying i a.payload := by
    refine hrun.invariant (I := fun w => w.Carrying i a.payload) (fun _ _ _ hI _ => hI.step) ?_
    obtain ⟨hallows, s, hsys, rfl⟩ := step_sys hstart
    simp only [Sys.step] at hsys
    split at hsys
    next hfree =>
      cases hsys
      refine ⟨isNone_iff_eq_none.mp hallows, by simp [Sys.setCall, Sys.free], fun c hc => ?_⟩
      have heq : (Op.publish a).entry = c := by simpa [Sys.setCall] using hc
      exact heq ▸ Call.all_entry rfl
    next => cases hsys
  unfold spySends at hx
  split at hx
  next r m' hat =>
    obtain ⟨ch', -, heq⟩ := List.mem_map.mp hx
    cases heq
    obtain ⟨pc, hpc, hspies⟩ := bind_eq_some_iff.mp hat
    obtain ⟨c, hc, rfl⟩ := map_eq_some_iff.mp hpc
    have hcarries := hinv.call c hc _ mem_cons_self
    unfold Pc.spiesAt at hspies
    split at hspies
    next heq =>
      cases hspies
      rwa [heq] at hcarries
    next heq =>
      cases hspies
      rwa [heq] at hcarries
    next => cases hspies
  next => exact absurd hx not_mem_nil

end World

namespace Ws

/-! ## What the server writes -/

/-- What the server writes to a client: its answers, and the messages that
the goroutine of a subscription has received and pushes. -/
inductive Output
  | respond (r : Response)
  | pong
  | push (m : Message)

namespace Output

variable (j : Json)

def frame : Output → ServerFrame
  | .respond r => .message (j.marshalResponse r)
  | .pong => .pong
  | .push m => .message ((j.marshalMessage m).getD [])

def bytes (out : Output) : List UInt8 := (out.frame j).bytes

/-- JSON carries it, and the frame is not too long for the SDK. -/
def Sent : Output → Prop
  | .respond r => j.CarriesResponse r ∧ (j.marshalResponse r).length ≤ 16 * 1024 * 1024
  | .pong => True
  | .push m => ∃ data, j.CarriesMessage m data ∧ data.length ≤ 16 * 1024 * 1024

def pushed : Output → Option Message
  | .push m => some m
  | _ => none

end Output

variable {H : Type} {j : Json}

theorem readLoop_output (handlers : Handlers H) {out : Output} (h : out.Sent j) (rest : List UInt8) :
    (readLoop j handlers (out.bytes j ++ rest)).1 =
      (out.pushed.bind (deliver handlers)).toList ++ (readLoop j handlers rest).1 := by
  have hframe : ∀ {f : ServerFrame}, out.frame j = f → f.Fits → (readLoop j handlers (out.bytes j ++ rest)).1 =
      f.calls j handlers ++ (readLoop j handlers rest).1 := by
    rintro f rfl hfits
    rw [Output.bytes, readLoop_frame j handlers hfits]
  cases out with
  | respond r =>
    rw [hframe (f := .message (j.marshalResponse r)) rfl h.2, ServerFrame.calls, dispatch_response handlers h.1]
    rfl
  | pong => exact hframe rfl trivial
  | push m =>
    obtain ⟨data, hdata, hfits⟩ := h
    have heq : (Output.push m).frame j = .message data := by rw [Output.frame, hdata.1, getD_some]
    rw [hframe heq hfits, ServerFrame.calls, dispatch_message handlers hdata]
    rfl

/-- **The loop of the SDK** calls a handler for the messages that are pushed
and have one. -/
theorem readLoop_outputs (handlers : Handlers H) {outs : List Output} (h : ∀ out ∈ outs, out.Sent j) :
    (readLoop j handlers (outs.flatMap (Output.bytes j))).1 =
    (outs.filterMap Output.pushed).filterMap (deliver handlers) := by
  induction outs with
  | nil => rfl
  | cons out outs ih =>
    obtain ⟨hout, hrest⟩ := forall_mem_cons.mp h
    rw [flatMap_cons, readLoop_output handlers hout, ih hrest, filterMap_cons]
    cases out.pushed with
    | none => rfl
    | some m =>
      simp only [bind_some, filterMap_cons]
      cases deliver handlers m <;> rfl

/-! ## The payload -/

theorem decodePayload_eq_self : decodePayload p = p ↔ p = [] ∨ Codec.decodeBase64 p = none := by
  rw [decodePayload]
  cases hd : Codec.decodeBase64 p with
  | none => simp
  | some d =>
    simp only [getD_some, reduceCtorEq, or_false]
    constructor
    · rintro rfl
      exact Codec.eq_nil_of_decodeBase64_self hd
    · rintro rfl
      exact (some.inj hd).symm

/-- **What becomes of a payload**: it stays what it is if it is UTF-8 and
does not decode, unless it is empty. -/
theorem decodePayload_sanitize_iff :
    decodePayload (sanitize p) = p ↔ valid p = true ∧ (p = [] ∨ Codec.decodeBase64 p = none) := by
  cases hvalid : valid p with
  | false =>
    -- U+FFFD is no sign of base64.
    have hnone : Codec.decodeBase64 (sanitize p) = none :=
      Codec.decodeBase64_eq_none (replaced hvalid) (by decide) (by decide)
    rw [decodePayload, hnone, getD_none, sanitize_eq_self, hvalid]
    simp
  | true => rw [sanitize_eq_self.mpr hvalid, decodePayload_eq_self, and_iff_right rfl]

theorem payload_of_published (hcmd : j.CarriesCommand ⟨ascii "publish", topic, p⟩)
    (hfits : (j.marshalCommand ⟨ascii "publish", topic, p⟩).length ≤ 2 <<< 20)
    (ha : .publish a ∈ (serve j hub c (sdkPublish j topic p maskKey)).1) : a.payload = sanitize p := by
  rw [sdkPublish, serve_writeCommand hub c maskKey hfits, handleCommand_publish hub c hcmd,
    Client.publish] at ha
  split at ha
  · simp [sendError] at ha
  · simp only [mem_cons, Event.publish.injEq, not_mem_nil, or_false] at ha
    rcases ha with rfl | hanswer
    · rfl
    · split at hanswer <;> cases hanswer

open World in
/-- **Which payloads arrive.** A client publishes `p`; the server calls
`Publish`, which sends a message of the topic to a spy, in any run; the
message is pushed to a client that has a handler for the topic. The handler
is called, and with the payload `p` if and only if `p` is UTF-8 and, unless
it is empty, not base64. -/
theorem payload_delivered_iff {hub : Hub} {c : Client} {topic : GoString} {p : List UInt8} {maskKey : MaskKey}
    {a : PublishArgs} {handlers : Handlers H} {h : H} {w₀ w₁ w : World} {i : Nat} {ch : Spy} {m : Message}
    {limits policy hooked storage env chans} {now : Time} (hcmd : j.CarriesCommand ⟨ascii "publish", topic, p⟩)
    (hfits : (j.marshalCommand ⟨ascii "publish", topic, p⟩).length ≤ 2 <<< 20)
    (ha : .publish a ∈ (serve j hub c (sdkPublish j topic p maskKey)).1)
    (hrun₀ : Lts.Run World.step (fun _ _ => True) (init now (.new limits policy hooked storage env chans)) w₀)
    (hstart : w₀.step (.sys (.start i (.publish a))) = some w₁) (hrun : Lts.Run World.step (fun _ _ => True) w₁ w)
    (hx : (ch, m) ∈ w.spySends (.sys (.run i))) (htopic : m.topic = topic)
    (hhandler : handlers.lookup topic = some (some h)) (hsent : (Output.push m).Sent j) :
    ∃ m', (readLoop j handlers ((Output.push m).bytes j)).1 = [(h, m')] ∧
      (m'.payload = p ↔ valid p = true ∧ (p = [] ∨ Codec.decodeBase64 p = none)) := by
  have hpayload : m.payload = sanitize p :=
    (payload_of_run hstart hrun hx).trans (payload_of_published hcmd hfits ha)
  have haims : w.Aims := aims_of_run ((hrun₀.snoc trivial hstart).trans hrun)
  have hsame : (received m).topic = topic := by
    have hvalid := (haims.spySends hx).1
    rw [received, sanitizedMessage, ← htopic]
    exact sanitize_validTopicRegex hvalid
  have hcalls := readLoop_output handlers hsent []
  rw [append_nil] at hcalls
  refine ⟨received m, ?_, ?_⟩
  · rw [hcalls, Output.pushed, bind_some, deliver_of_lookup (by rw [hsame]; exact hhandler)]
    rfl
  · rw [← decodePayload_sanitize_iff, ← hpayload]
    rfl

/-- The `Publish` of the server for a payload, and the message it makes at
time 0 on `Broker.sample`. -/
def pushArgs (p : GoString) : PublishArgs := Command.publishArgs (SdkCommand.sanitized ⟨ascii "publish", ascii "t", p⟩)

def pushMessage (p : GoString) : Message := (pushArgs p).message [97] 0 0

def pushText (payload : String) : GoString :=
  ascii "\x7b\"id\":\"a\",\"topic\":\"t\",\"payload\":\"" ++ ascii payload ++
  ascii "\",\"timestamp\":\"1970-01-01T00:00:00Z\",\"retry_count\":0\x7d"

/-- The payload `abcd` is base64, the payload `hi!` is not. -/
def pushJson : Json := .table
  [(ascii "\x7b\"action\":\"publish\",\"topic\":\"t\",\"payload\":\"hi!\"\x7d",
    ⟨ascii "publish", ascii "t", ascii "hi!"⟩),
    (ascii "\x7b\"action\":\"publish\",\"topic\":\"t\",\"payload\":\"abcd\"\x7d",
      ⟨ascii "publish", ascii "t", ascii "abcd"⟩),
    (ascii "\x7b\"action\":\"subscribe\",\"topic\":\"t\"\x7d", ⟨ascii "subscribe", ascii "t", []⟩),
    (ascii "\x7b\"action\":\"subscribe\",\"topic\":\"t*\"\x7d", ⟨ascii "subscribe", ascii "t*", []⟩)]
  [(pushText "aGkh", pushMessage (ascii "hi!")), (pushText "YWJjZA==", pushMessage (ascii "abcd"))]

def pushHandlers : Handlers Unit := AList.insert (ascii "t") (some ()) ∅

theorem pushJson_sent : ∀ p ∈ [ascii "hi!", ascii "abcd"], (Output.push (pushMessage p)).Sent pushJson := by
  have hdata : ∀ p ∈ [ascii "hi!", ascii "abcd"], ∃ data ∈ pushJson.marshalMessage (pushMessage p),
      ∃ keys ∈ pushJson.unmarshalKeys data, ascii "status" ∉ keys ∧
        pushJson.unmarshalMessage data = some (sanitizedMessage (pushMessage p)) ∧ data.length ≤ 16 * 1024 * 1024 := by
    decide +kernel
  intro p hp
  obtain ⟨data, hm, keys, hkeys, hstatus, hmsg, hlen⟩ := hdata p hp
  exact ⟨data, ⟨hm, ⟨keys, hkeys, hstatus⟩, hmsg⟩, hlen⟩

open World in
theorem payload_delivered_sample :
    ∃ m', (readLoop pushJson pushHandlers ((Output.push (pushMessage (ascii "hi!"))).bytes pushJson)).1 = [((), m')] ∧
      m'.payload = ascii "hi!" := by
  let start : WorldLabel := .sys (.start 1 (.publish (pushArgs (ascii "hi!"))))
  let w₀ : World :=
    (Lts.exec World.step (init 0 .sample) (WorldLabel.method 0 (.addSpy (ascii "t")) 2)).get (by decide +kernel)
  let w₁ : World := (w₀.step start).get (by decide +kernel)
  have hrun₀ : Lts.Run World.step (fun _ _ => True) (init 0 .sample) w₀ := .of_exec_get _ _ (by decide +kernel)
  have hrun : Lts.Run World.step (fun _ _ => True) w₁ _ :=
    .of_exec_get (replicate 7 (.sys (.run 1))) (by decide +kernel) (by decide +kernel)
  have ha : .publish (pushArgs (ascii "hi!")) ∈
    (serve pushJson .sample .new (sdkPublish pushJson (ascii "t") (ascii "hi!") sampleKey)).1 := by
    decide +kernel
  have hhandler : pushHandlers.lookup (ascii "t") = some (some ()) := rfl
  obtain ⟨m', hcall, hpayload⟩ :=
    payload_delivered_iff (by decide +kernel) (by decide +kernel) ha hrun₀ (some_get _).symm hrun
      (show (0, pushMessage (ascii "hi!")) ∈ _ by decide +kernel) rfl hhandler (pushJson_sent _ (by decide))
  exact ⟨m', hcall, hpayload.mpr (by decide +kernel)⟩

open World in
/-- A payload that is base64 is given to the handler decoded. -/
theorem base64_payload_decoded : .publish (pushArgs (ascii "abcd")) ∈
      (serve pushJson .sample .new (sdkPublish pushJson (ascii "t") (ascii "abcd") sampleKey)).1 ∧
    (∃ w, Lts.Run World.step (fun _ _ => True) (init 0 .sample) w ∧ w.past.spied = [(0, pushMessage (ascii "abcd"))]) ∧
    (readLoop pushJson pushHandlers ((Output.push (pushMessage (ascii "abcd"))).bytes pushJson)).1 =
      [((), { pushMessage (ascii "abcd") with payload := [105, 183, 29] })] := by
  refine ⟨by decide +kernel, ⟨_, .of_exec_get (WorldLabel.method 0 (.addSpy (ascii "t")) 2 ++
    WorldLabel.call 1 (.publish (pushArgs (ascii "abcd"))) 11)
      (by decide +kernel) (by decide +kernel), by decide +kernel⟩, by decide +kernel⟩

/-! ## Subscriptions -/

/-- A message that a handler is given as it is. -/
structure Intact (m : Message) : Prop where
  id : valid m.id = true
  headers : ∀ kv ∈ m.headers, valid kv.1 = true ∧ valid kv.2 = true
  payload : m.payload = [] ∨ Codec.decodeBase64 m.payload = none

theorem received_eq_self_iff (hv : validTopicRegex m.topic = true) : received m = m ↔ Intact m := by
  have hheaders : (sanitizedMessage m).headers = m.headers ↔
      ∀ kv ∈ m.headers, valid kv.1 = true ∧ valid kv.2 = true := by
    have hid : (sanitizedMessage m).headers = m.headers.map id ↔ _ := map_inj_left
    rw [List.map_id] at hid
    rw [hid]
    simp only [id, Prod.ext_iff, sanitize_eq_self]
  have hmk : ∀ m' : Message, m' = m ↔ m'.id = m.id ∧ m'.topic = m.topic ∧ m'.payload = m.payload ∧
      m'.timestamp = m.timestamp ∧ m'.expiresAt = m.expiresAt ∧ m'.deliverAt = m.deliverAt ∧
      m'.retryCount = m.retryCount ∧ m'.headers = m.headers := by
    intro m'
    cases m
    cases m'
    simp
  rw [hmk]
  simp only [received, decodePayload_eq_self, hheaders]
  simp only [sanitizedMessage, sanitize_eq_self, true_and]
  constructor
  · rintro ⟨hid, -, hpayload, hhead⟩
    exact ⟨hid, hhead, hpayload⟩
  · rintro ⟨hid, hhead, hpayload⟩
    exact ⟨hid, sanitize_eq_self.mp (sanitize_validTopicRegex hv), hpayload, hhead⟩

theorem deliver_iff {s : GoString} {h : H} {m : Message} (hv : validTopicRegex m.topic = true)
    (hm : nameMatches s m.topic = true) :
    deliver (AList.insert s (some h) ∅) m = some (h, m) ↔ ¬ ascii "*" <:+: s ∧ Intact m := by
  have htopic : (received m).topic = m.topic := sanitize_validTopicRegex hv
  by_cases hstar : ascii "*" <:+: s
  · -- No message has the topic of a wildcard.
    have hne : (received m).topic ≠ s := by
      rw [htopic]
      rintro rfl
      exact star_not_mem_of_validTopicRegex hv hstar
    have hnone : (AList.insert s (some h) ∅ : Handlers H).lookup (received m).topic = none := by
      rw [AList.lookup_insert_ne hne]
      rfl
    rw [deliver, hnone]
    simp [hstar]
  · have heq : (received m).topic = s := htopic.trans ((nameMatches_plain hstar).mp hm).symm
    have hlookup : (AList.insert s (some h) ∅ : Handlers H).lookup (received m).topic = some (some h) := by
      rw [heq]
      exact AList.lookup_insert _
    rw [deliver_of_lookup hlookup, ← received_eq_self_iff hv]
    simp [hstar]

open World in
/-- **Which subscriptions fire.** A client calls `Subscribe(s, h)` on a new
connection; the server calls `AddSpy`, which returns a spy, in any run, and
starts a goroutine without a filter. Whatever that goroutine has pushed of
what was sent to its spy, with any answers in between, `readLoop` has called
`h` once for each message and with that message, in their order, if and only
if there were none or `s` is no wildcard, and all of them are intact. -/
theorem subscription_fires_iff {hub : Hub} {s : GoString} {h : H} {maskKey : MaskKey} {outs : List Output}
    {w₀ w₁ w : World} {i : Nat} {ch : Spy} {limits policy hooked storage env chans} {now : Time}
      (hsent : (SdkCall.subscribe s (some h) maskKey).Sent j) (hspy : hub.addSpy 0 s = .ok ch)
    (hrun₀ : Lts.Run World.step (fun _ _ => True) (init now (.new limits policy hooked storage env chans)) w₀)
    (hstart : w₀.step (.start i (.addSpy s)) = some w₁) (hrun : Lts.Run World.step (fun _ _ => True) w₁ w)
    (hdone : w.methods i = some (.done (.spy ch))) (houts : ∀ out ∈ outs, out.Sent j)
    (hpushed : ∀ m, .push m ∈ outs → (ch, m) ∈ w.past.spied) :
    (serve j hub .new ((SdkCall.subscribe s (some h) maskKey).run j ∅).1).1 =
        [.respond ⟨ascii "subscribed", [], s⟩, .spawn [] [] ch] ∧
      ((readLoop j ((SdkCall.subscribe s (some h) maskKey).run j ∅).2 (outs.flatMap (Output.bytes j))).1 =
          (outs.filterMap Output.pushed).map (fun m => (h, m)) ↔
        ∀ m ∈ outs.filterMap Output.pushed, ¬ ascii "*" <:+: s ∧ Intact m) := by
  have hspyOf := spyOf_of_run hrun₀ hstart hrun hdone
  refine ⟨?_, ?_⟩
  · have hvalid := hub.addSpy_valid hspy
    have hne : s ≠ [] := by
      rintro rfl
      exact absurd hvalid (by decide)
    have htopic : (SdkCommand.sanitized ⟨ascii "subscribe", s, []⟩).topic = s := sanitize_isValidTopicName hvalid
    have hserve : serve j hub .new ((SdkCall.subscribe s (some h) maskKey).run j ∅).1 =
        Client.new.subscribe hub (SdkCommand.sanitized ⟨ascii "subscribe", s, []⟩) :=
      (serve_writeCommand hub .new maskKey hsent.2).trans (handleCommand_subscribe hub .new hsent.1)
    have hask : hub.addSpy Client.new.asked s = .ok ch := hspy
    rw [hserve, Client.subscribe, htopic, if_neg hne, if_neg (by simp [Client.new]), hask]
    rfl
  · rw [readLoop_outputs _ houts, filterMap_eq_map_iff_forall_eq_some]
    refine forall₂_congr fun m hm => ?_
    have hmem : .push m ∈ outs := by
      obtain ⟨out, hout, hpush⟩ := mem_filterMap.mp hm
      cases out <;> cases hpush
      exact hout
    obtain ⟨hv, hmatch⟩ := hspyOf.sent m (hpushed m hmem)
    exact deliver_iff hv hmatch

/-- The answer to the subscription, and a message. -/
def pushOutputs (s : GoString) : List Output :=
  [.respond ⟨ascii "subscribed", [], s⟩, .push (pushMessage (ascii "hi!"))]

open World in
theorem subscription_fires_sample :
    (readLoop pushJson ((SdkCall.subscribe (ascii "t") (some ()) sampleKey).run pushJson ∅).2
      ((pushOutputs (ascii "t")).flatMap (Output.bytes pushJson))).1 = [((), pushMessage (ascii "hi!"))] := by
  let w₁ : World := ((init 0 .sample).step (.start 0 (.addSpy (ascii "t")))).get (by decide +kernel)
  have hrun : Lts.Run World.step (fun _ _ => True) w₁ _ :=
    .of_exec_get ([.run 0, .run 0] ++ WorldLabel.call 1 (.publish (pushArgs (ascii "hi!"))) 11) (by decide +kernel)
      (by decide +kernel)
  have houts : ∀ out ∈ pushOutputs (ascii "t"), out.Sent pushJson := by
    intro out hout
    rcases mem_pair.mp hout with rfl | rfl
    · exact ⟨⟨[ascii "status"], by decide +kernel, by decide⟩, by decide +kernel⟩
    · exact pushJson_sent _ (by decide)
  have hpushed : ∀ m, .push m ∈ pushOutputs (ascii "t") → m = pushMessage (ascii "hi!") := by simp [pushOutputs]
  have hspy : Hub.sample.addSpy 0 (ascii "t") = .ok 0 := rfl
  refine (subscription_fires_iff (by decide +kernel) hspy .refl (some_get _).symm hrun
    (by decide +kernel) houts
    fun m hm => hpushed m hm ▸ by decide +kernel).2.mpr fun m hm => ?_
  obtain rfl := mem_singleton.mp hm
  exact ⟨by decide, ⟨by decide, fun kv hkv => absurd hkv not_mem_nil, .inr (by decide +kernel)⟩⟩

open World in
/-- A wildcard is subscribed to and the message is pushed, but the handler
is not called. -/
theorem wildcard_handler_unused :
    (serve pushJson .sample .new ((SdkCall.subscribe (ascii "t*") (some ()) sampleKey).run pushJson ∅).1).1 =
      [.respond ⟨ascii "subscribed", [], ascii "t*"⟩, .spawn [] [] 0] ∧
    (∃ w, Lts.Run World.step (fun _ _ => True) (init 0 .sample) w ∧ w.methods 0 = some (.done (.spy 0)) ∧
      w.past.spied = [(0, pushMessage (ascii "hi!"))]) ∧
    (readLoop pushJson ((SdkCall.subscribe (ascii "t*") (some ()) sampleKey).run pushJson ∅).2
      ((pushOutputs (ascii "t*")).flatMap (Output.bytes pushJson))).1 = [] := by
  refine ⟨by decide +kernel, ⟨_, .of_exec_get (WorldLabel.method 0 (.addSpy (ascii "t*")) 2 ++
    WorldLabel.call 1
      (.publish (pushArgs (ascii "hi!"))) 12) (by decide +kernel) (by decide +kernel), by decide +kernel,
    by decide +kernel⟩, by decide +kernel⟩

end Ws

end TinyMQ
