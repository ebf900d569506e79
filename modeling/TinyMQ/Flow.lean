/-
Where a call goes on.

`Pc.Flow` has one constructor for each way in which a section goes on to
another one, with what the section has found. What a call carries from
section to section (its message, the consumers it has taken, the results it
will return) is read off it, case by case.
-/
import TinyMQ.World

namespace TinyMQ

open Broker

variable {now : Time} {b : Broker} {pc : Pc}

/-- How a section at a program counter goes on. -/
inductive Pc.Flow (now : Time) (b : Broker) : Pc → Next → Prop
  | ret {pc r} : Flow now b pc (.ret r)
  -- `publishCore`
  | group {left a} : Flow now b (.publish left a .enter) (.goto (.publish left a .getTopic))
  | enter {left a dests} : Flow now b (.publish left a .enter) (.goto (.publish left a (.fanOut dests)))
  | call {left a dest dests} : Flow now b (.publish left a (.fanOut (dest :: dests)))
        (.call (.publish (left - 1) { a with topicName := dest } .enter) (.publish left a (.fanOut dests)))
  | fanOut {left a} : Flow now b (.publish left a (.fanOut [])) (.goto (.publish left a .getTopic))
  | getTopic {left a t} : Flow now b (.publish left a .getTopic) (.goto (.publish left a (.getWildcards t)))
  | getWildcards {left a t ws} :
      Flow now b (.publish left a (.getWildcards t)) (.goto (.publish left a (.newMessage t ws)))
  | newMessage {left a t ws retention} : Flow now b (.publish left a (.newMessage t ws))
        (.goto (.publish left a (.onPublish t ws (a.message (b.env.newUUID b.uuids) retention now))))
  | onPublish {left a t ws m} :
      Flow now b (.publish left a (.onPublish t ws m)) (.goto (.publish left a (.store t ws m (m.delayed now))))
  | store {left a t ws m} : (Pc.publish left a (.store t ws m false)).appends b = some (t, m) →
      Flow now b (.publish left a (.store t ws m false)) (.goto (.push ⟨t, m, ws, a.isBroadcast⟩ .spies))
  -- `pushFunc`
  | spies {p} : Flow now b (.push p .spies) (.goto (.push p (.wildSpies p.matchingWildcards)))
  | wildSpies {p r rest} : Flow now b (.push p (.wildSpies (r :: rest))) (.goto (.push p (.wildSpies rest)))
  | broadcasts {p} : Flow now b (.push p (.wildSpies [])) (.goto (.push p (.takeWild p.matchingWildcards [])))
  | pushes {p} : Flow now b (.push p (.wildSpies [])) (.goto (.push p (.popWild p.matchingWildcards)))
  | takeWild {p r rest channels} :
      Flow now b (.push p (.takeWild (r :: rest) channels)) (.goto (.push p (.takeWild rest (channels ++ b.waiting r))))
  | tookWild {p channels} : Flow now b (.push p (.takeWild [] channels)) (.goto (.push p (.takeOwn channels)))
  | popWild {p r rest ch} : b.waiting r ≠ [] →
      Flow now b (.push p (.popWild (r :: rest))) (.goto (.push p (.sendWild ch rest)))
  | noneWild {p r rest} : Flow now b (.push p (.popWild (r :: rest))) (.goto (.push p (.popWild rest)))
  | poppedWild {p} : Flow now b (.push p (.popWild [])) (.goto (.push p .popOwn))
  | sentWild {p ch rest} : Flow now b (.push p (.sendWild ch rest)) (.goto (.push p .remove))
  | fullWild {p : Push} {ch rest} : b.trySend ch p.msg = none →
      Flow now b (.push p (.sendWild ch rest)) (.goto (.push p (.holdWild rest)))
  | holdWild {p rest} : Flow now b (.push p (.holdWild rest)) (.goto (.push p (.popWild rest)))
  | popOwn {p : Push} {ch} : b.waiting p.t ≠ [] → Flow now b (.push p .popOwn) (.goto (.push p (.sendOwn ch)))
  | sentOwn {p ch} : Flow now b (.push p (.sendOwn ch)) (.goto (.push p .remove))
  | broadcast {ch channels m} : Flow now b (.broadcast (ch :: channels) m) (.goto (.broadcast channels m))
  -- `Consume`
  | find {q t} : Flow now b (.consume q .getTopic) (.goto (.consume q (.getMatching t)))
  | getMatching {q t rest} : Flow now b (.consume q (.getMatching t)) (.goto (.consume q (.scan t rest)))
  | scan {q t r rest results name ids} : (∀ m ∈ results, m.expired now = false) →
      Flow now b (.consume q (.scan t (r :: rest))) (.goto (.consume q (.scanAck t rest results name ids)))
  | scanned {q t} : Flow now b (.consume q (.scan t [])) (.goto (.consume q (.target t)))
  | scanAck {q t rest results name id ids} : Flow now b (.consume q (.scanAck t rest results name (id :: ids)))
        (.goto (.consume q (.scanAck t rest results name ids)))
  | scanNext {q t rest name} :
      Flow now b (.consume q (.scanAck t rest [] name [])) (.goto (.consume q (.scan t rest)))
  | target {q t results name ids} : (∀ m ∈ results, m.expired now = false) →
      Flow now b (.consume q (.target t)) (.goto (.consume q (.targetAck results name ids)))
  | targetAck {q results name id ids} :
      Flow now b (.consume q (.targetAck results name (id :: ids))) (.goto (.consume q (.targetAck results name ids)))
  -- the other methods
  | ack {topicName msgID t} : Flow now b (.ack topicName msgID) (.goto (.ackAt t topicName msgID))
  | removeWaiting {topicName ch t} :
      Flow now b (.removeWaiting topicName ch) (.goto (.removeWaitingAt t topicName ch))
  | requeue {m t} : Flow now b (.requeue m) (.goto (.requeuePut t (requeued m)))
  | requeuePut {m t} : Flow now b (.requeuePut t m) (.goto (.requeueAt t m))

namespace Broker

theorem takeWaiting_eq (h : b.takeWaiting r = some (chs, b')) : chs = b.waiting r := by
  obtain ⟨t, ht, h⟩ := Option.map_eq_some_iff.mp h
  cases h
  exact (waiting_of_lock ht).symm

theorem popWaiting_ne_nil (h : b.popWaiting r = some (some ch, b')) : b.waiting r ≠ [] := by
  rw [(popWaiting_spec h).2]
  exact List.cons_ne_nil _ _

end Broker

theorem PublishPc.step_flow (h : k.step now b left a = some o) : Pc.Flow now b (.publish left a k) o.next := by
  cases PublishPc.steps h with
  | stored hb => exact .store (by simp [Pc.appends, hb])
  | _ => constructor

theorem PushPc.step_flow (h : k.step b p = some o) : Pc.Flow now b (.push p k) o.next := by
  cases PushPc.steps h with
  | spied =>
    cases hb : p.isBroadcast with
    | true => simpa [Outcome.goto, hb] using .broadcasts
    | false => simpa [Outcome.goto, hb] using .pushes
  | takeWild hb =>
    rw [takeWaiting_eq hb]
    exact .takeWild
  | popWild hb => exact .popWild (popWaiting_ne_nil hb)
  | popOwn hb => exact .popOwn (popWaiting_ne_nil hb)
  | fullWild hfull => exact .fullWild hfull
  | _ => constructor

theorem ConsumePc.step_flow (h : k.step now b q = some o) : Pc.Flow now b (.consume q k) o.next := by
  cases ConsumePc.steps h with
  | scan hb => exact .scan fun m hm => ((extractMatching_extracts hb).ready m hm).1
  | target hb => exact .target fun m hm => ((extractTarget_extracts hb).ready m hm).1
  | _ => constructor

theorem Pc.step_flow (h : pc.step now b = some o) : pc.Flow now b o.next := by
  cases Pc.steps h with
  | publish h => exact PublishPc.step_flow h
  | push h => exact PushPc.step_flow h
  | consume h => exact ConsumePc.step_flow h
  | _ => constructor

theorem Pc.step_goto (h : pc.step now b = some o) (hn : o.next = .goto pc') : pc.Flow now b (.goto pc') :=
  hn ▸ Pc.step_flow h

end TinyMQ
