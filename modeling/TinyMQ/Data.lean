/-
The values the broker handles: Go strings, times, messages.

A Go string is a sequence of bytes, so strings and payloads are both
`List UInt8`; a literal is written `ascii "..."`. Times are nanoseconds on
one clock, as `time.Time` compares them.
-/
import Mathlib.Data.List.Basic

namespace TinyMQ

/-- A Go string: its bytes. -/
abbrev GoString := List UInt8

instance : LawfulBEq GoString := inferInstance

/-- A Go string literal (every literal of the source used here is ASCII). -/
def ascii (s : String) : GoString := s.toList.map fun c => c.toNat.toUInt8

abbrev Time := Int

/-- `message.Message`. -/
structure Message where
  id : GoString
  topic : GoString
  payload : List UInt8
  timestamp : Time
  expiresAt : Option Time
  deliverAt : Option Time
  retryCount : Int64
  headers : List (GoString × GoString)
  deriving DecidableEq, Repr, Inhabited

/-- `msg.ExpiresAt != nil && now.After(*msg.ExpiresAt)`. -/
def Message.expired (m : Message) (now : Time) : Bool :=
  match m.expiresAt with
  | none => false
  | some e => decide (e < now)

/-- `msg.DeliverAt != nil && now.Before(*msg.DeliverAt)`. -/
def Message.delayed (m : Message) (now : Time) : Bool :=
  match m.deliverAt with
  | none => false
  | some d => decide (now < d)

/-- The queue a message is appended to: every priority other than `high`
and `low` is the normal one. -/
inductive Priority
  | high
  | normal
  | low
  deriving DecidableEq, Repr

/-- The `switch priority` of `publishCore`. -/
def Priority.ofString (s : GoString) : Priority :=
  if s = ascii "high" then .high else if s = ascii "low" then .low else .normal

/-- What a full topic does with one more message; every policy other than
`drop-oldest` is `reject`. -/
inductive Policy
  | reject
  | dropOldest
  deriving DecidableEq, Repr

def Policy.ofString (s : GoString) : Policy :=
  if s = ascii "drop-oldest" then .dropOldest else .reject

end TinyMQ
