/-
The rate limiter of the REST gateway, for one IP: no call and no clean-up pass
lets one bucket depend on another. The numbers are exact: tokens and times, in
seconds, are rationals.

A bucket that `cleanupLoop` deletes would be full at the next call, as a new one
is (`ask_eq`).
-/
import Mathlib.Algebra.Order.Field.Rat
import Mathlib.Data.List.Basic
import Mathlib.Tactic.Linarith
import Mathlib.Tactic.NormNum

namespace TinyMQ

open List

structure TokenBucket where
  tokens : ℚ
  maxTokens : ℚ
  refillRate : ℚ
  lastRefill : ℚ

namespace TokenBucket

def new (rate now : ℚ) : TokenBucket := ⟨rate, rate, rate, now⟩

def allow (tb : TokenBucket) (now : ℚ) : Bool × TokenBucket :=
  let elapsed := now - tb.lastRefill
  let tokens := tb.tokens + elapsed * tb.refillRate
  let tokens := if tokens > tb.maxTokens then tb.maxTokens else tokens
  if tokens ≥ 1 then (true, { tb with tokens := tokens - 1, lastRefill := now })
  else (false, { tb with tokens, lastRefill := now })

/-- A call of `Allow`, and the passes of `cleanupLoop` before it; none comes
between its `getBucket`, which looks at the clock when it makes a bucket, and
the bucket's own `Allow`. -/
structure LimitedCall where
  passes : List ℚ
  made : ℚ
  now : ℚ
  passes_le : ∀ p ∈ passes, p ≤ made
  made_le : made ≤ now

/-- A call at this time, with no pass before it. -/
def LimitedCall.at (now : ℚ) : LimitedCall := ⟨[], now, now, forall_mem_nil _, le_rfl⟩

/-- What the map has of the IP after the passes. -/
def cleanup (entry : Option TokenBucket) (passes : List ℚ) : Option TokenBucket :=
  entry.filter fun tb => passes.all fun now => ¬now - tb.lastRefill > 60

/-- `Allow`, and the bucket that the map then has. -/
def ask (rate : ℚ) (entry : Option TokenBucket) (c : LimitedCall) : Bool × TokenBucket :=
  ((cleanup entry c.passes).getD (new rate c.made)).allow c.now

/-- The map after a history of calls, the last one at `last`. -/
inductive Reached (rate : ℚ) : ℚ → Option TokenBucket → Prop
  | new {last} : Reached rate last none
  | ask {last entry c} : Reached rate last entry → last ≤ c.made → Reached rate c.now (some (ask rate entry c).2)

def Timed : ℚ → List LimitedCall → Prop
  | _, [] => True
  | last, c :: cs => last ≤ c.made ∧ Timed c.now cs

def allowed (rate : ℚ) : Option TokenBucket → List LimitedCall → ℕ
  | _, [] => 0
  | entry, c :: cs => (ask rate entry c).1.toNat + allowed rate (some (ask rate entry c).2) cs

def spend (rate tokens now : ℚ) : Bool × TokenBucket :=
  if 1 ≤ tokens then (true, ⟨tokens - 1, rate, rate, now⟩) else (false, ⟨tokens, rate, rate, now⟩)

/-- The tokens at the next call: a new bucket is full. -/
def level (rate now : ℚ) : Option TokenBucket → ℚ
  | none => rate
  | some tb => min rate (tb.tokens + (now - tb.lastRefill) * rate)

structure Held (rate last : ℚ) (tb : TokenBucket) : Prop where
  tokens : 0 ≤ tb.tokens ∧ tb.tokens ≤ rate
  maxTokens : tb.maxTokens = rate
  refillRate : tb.refillRate = rate
  lastRefill : tb.lastRefill = last

variable {rate last s t : ℚ} {tb : TokenBucket} {c : LimitedCall} {cs : List LimitedCall} {entry : Option TokenBucket}

theorem Held.allow (h : Held rate last tb) : tb.allow now = spend rate (level rate now (some tb)) now := by
  have hlevel : (if tb.tokens + (now - tb.lastRefill) * rate > rate then rate
      else tb.tokens + (now - tb.lastRefill) * rate) = level rate now (some tb) := by
    rw [level, min_def]
    grind
  simp only [TokenBucket.allow, h.maxTokens, h.refillRate, hlevel, spend]

/-- **A clean-up does not show**: a bucket that it deletes would be full. -/
theorem ask_eq (hrate : 0 < rate) (h : ∀ tb ∈ entry, Held rate last tb) :
    ask rate entry c = spend rate (level rate c.now entry) c.now := by
  have hnew : (new rate c.made).allow c.now = spend rate rate c.now := by
    have hfull : level rate c.now (some (new rate c.made)) = rate :=
      min_eq_left (le_add_of_nonneg_right (mul_nonneg (sub_nonneg.mpr c.made_le) hrate.le))
    have hheld : Held rate c.made (new rate c.made) := ⟨⟨hrate.le, le_rfl⟩, rfl, rfl, rfl⟩
    rw [hheld.allow, hfull]
  cases entry with
  | none => exact hnew
  | some tb =>
    have htb := h tb rfl
    by_cases hp : c.passes.all fun now => ¬now - tb.lastRefill > 60
    · rw [ask, cleanup, Option.filter_some, if_pos hp]
      exact htb.allow
    · rw [ask, cleanup, Option.filter_some, if_neg hp]
      obtain ⟨p, hmem, hidle⟩ : ∃ p ∈ c.passes, 60 + tb.lastRefill < p := by simpa using hp
      have hgain : rate ≤ (c.now - tb.lastRefill) * rate :=
        le_mul_of_one_le_left hrate.le (by linarith [c.passes_le p hmem, c.made_le])
      have hfull : level rate c.now (some tb) = rate := min_eq_left (by linarith [htb.tokens.1])
      rw [hfull]
      exact hnew

theorem ask_spec (hrate : 0 < rate) (h : ∀ tb ∈ entry, Held rate last tb) (hlast : last ≤ c.made) :
    Held rate c.now (ask rate entry c).2 ∧
      ((ask rate entry c).1.toNat : ℚ) + (ask rate entry c).2.tokens = level rate c.now entry ∧
      level rate c.now entry ≤ rate := by
  have hle : level rate c.now entry ≤ rate := by cases entry <;> simp [level]
  have h0 : 0 ≤ level rate c.now entry := by
    cases entry with
    | none => exact hrate.le
    | some tb =>
      obtain ⟨⟨h0, -⟩, -, -, hl⟩ := h tb rfl
      exact le_min hrate.le (add_nonneg h0 (mul_nonneg (by linarith [c.made_le]) hrate.le))
  rw [ask_eq hrate h, spend]
  split <;> exact ⟨⟨by constructor <;> linarith, rfl, rfl, rfl⟩, by simp, hle⟩

theorem Reached.held (hrate : 0 < rate) (h : Reached rate last entry) : ∀ tb ∈ entry, Held rate last tb := by
  induction h with
  | new => simp
  | ask h hmade ih => simpa using (ask_spec hrate ih hmade).1

/-- **A client that waits is let in** when a token has had the time to come,
exactly if a bucket holds one: for a rate below 1 nobody ever is. -/
theorem idle_allowed_iff (hrate : 0 < rate) (h : Reached rate last entry)
    (hidle : entry.isSome → last + 1 / rate ≤ c.now) : (ask rate entry c).1 = true ↔ 1 ≤ rate := by
  have hheld := h.held hrate
  have hspend : ∀ x, (spend rate x c.now).1 = true ↔ 1 ≤ x := fun x => by simp [spend, apply_ite]
  rw [ask_eq hrate hheld, hspend]
  cases entry with
  | none => rfl
  | some tb =>
    obtain ⟨htokens, -, -, rfl⟩ := hheld tb rfl
    have hgain : 1 ≤ (c.now - tb.lastRefill) * rate := (div_le_iff₀ hrate).mp (by linarith [hidle rfl])
    exact le_min_iff.trans (and_iff_left (by linarith [htokens.1]))

theorem idle_allowed_sample : (ask 2 (some (ask 2 none (.at 0)).2) (.at 1)).1 = true :=
  (idle_allowed_iff (by norm_num) (.ask (@Reached.new _ 0) le_rfl) fun _ => by norm_num [LimitedCall.at]).mpr
    (by norm_num)

/-- With half a request a second the first call is refused. -/
theorem idle_refused : (ask (1 / 2) none (.at 0)).1 = false := by
  norm_num [ask, cleanup, new, allow, LimitedCall.at]

/-- What is allowed until `t` were tokens before, or came in the meantime. -/
theorem allowed_le (hrate : 0 < rate) (h : Held rate last tb) (htimed : Timed last cs) (ht : last ≤ t)
    (hcs : ∀ c ∈ cs, c.now ≤ t) : (allowed rate (some tb) cs : ℚ) ≤ tb.tokens + rate * (t - last) := by
  induction cs generalizing last tb with
  | nil => simpa [allowed] using add_nonneg h.tokens.1 (mul_nonneg hrate.le (sub_nonneg.mpr ht))
  | cons c cs ih =>
    have hheld : ∀ tb' ∈ some tb, Held rate last tb' := by simpa
    obtain ⟨hnext, hsum, -⟩ := ask_spec hrate hheld htimed.1
    have hrest := ih hnext htimed.2 (hcs c mem_cons_self) fun d hd => hcs d (mem_cons_of_mem c hd)
    have hgain : level rate c.now (some tb) ≤ tb.tokens + (c.now - last) * rate := h.lastRefill ▸ min_le_right ..
    rw [allowed, Nat.cast_add]
    linarith

/-- **The limit**: what a window allows is at most what a bucket holds and what
comes in it. The buckets stay within their bounds, and no answer depends on the
passes of `cleanupLoop`. -/
theorem rate_limit_bound (hrate : 0 < rate) (h : Reached rate last entry) (htimed : Timed last cs) (hst : s ≤ t)
    (hwindow : ∀ c ∈ cs, s ≤ c.now ∧ c.now ≤ t) : (allowed rate entry cs : ℚ) ≤ rate + rate * (t - s) ∧
      (∀ tb ∈ entry, 0 ≤ tb.tokens ∧ tb.tokens ≤ tb.maxTokens) ∧
      ∀ c c' : LimitedCall, c.now = c'.now → ask rate entry c = ask rate entry c' := by
  have hheld := h.held hrate
  refine ⟨?_, fun tb htb => ?_, fun c c' hnow => ?_⟩
  · cases cs with
    | nil => simpa [allowed] using add_nonneg hrate.le (mul_nonneg hrate.le (sub_nonneg.mpr hst))
    | cons c cs =>
      obtain ⟨hnext, hsum, hle⟩ := ask_spec hrate hheld htimed.1
      obtain ⟨hs, ht⟩ := hwindow c mem_cons_self
      have hrest := allowed_le hrate hnext htimed.2 ht fun d hd => (hwindow d (mem_cons_of_mem c hd)).2
      have hlater := mul_le_mul_of_nonneg_left (sub_le_sub_left hs t) hrate.le
      rw [allowed, Nat.cast_add]
      linarith
  · obtain ⟨htokens, hmax, -, -⟩ := hheld tb htb
    exact hmax ▸ htokens
  · rw [ask_eq hrate hheld, ask_eq hrate hheld, hnow]

/-- Three calls, the last of which is refused, and one after a pass that
deletes the bucket. -/
def sampleCalls : List LimitedCall :=
  [.at 0, .at 0, .at 0, ⟨[61], 62, 62, by simp; norm_num, le_rfl⟩]

theorem rate_limit_sample : allowed 2 none sampleCalls = 3 ∧ (allowed 2 none sampleCalls : ℚ) ≤ 2 + 2 * (62 - 0) :=
  ⟨by decide +kernel,
    (rate_limit_bound (by norm_num) (@Reached.new _ 0) (by norm_num [Timed, sampleCalls, LimitedCall.at]) (by norm_num)
      (by norm_num [sampleCalls, LimitedCall.at])).1⟩

end TokenBucket

end TinyMQ
