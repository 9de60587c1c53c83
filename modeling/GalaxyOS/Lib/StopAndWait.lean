import GalaxyOS.Lib.Fifo

/-! # Stop and wait

A sender with a queue of messages has one of them in flight at a time: it sends the first one, repeats it
when the receiver refuses it, and goes on to the next one when it is acknowledged.  An acknowledgement of
nothing is ignored.

`Link.queueds_eq` says that no message is lost or added, and `Link.flying_eq` what is in flight. -/

namespace StopAndWait

open Fifo

variable {α : Type}

inductive Event (α : Type) where
  /-- A message is put into the queue. -/
  | queued (a : α)
  /-- A message goes to the receiver. -/
  | sent (a : α)
  /-- The receiver acknowledges a message. -/
  | acked
  /-- The receiver asks for the message again. -/
  | refused
deriving DecidableEq, Repr

/-- The state of the sender. -/
structure Link (α : Type) where
  /-- What has been sent and acknowledged. -/
  finished : List α
  /-- What has been queued after that. -/
  pending : List α
  /-- The first pending message has been sent. -/
  flying : Bool
  /-- It has been refused since. -/
  mayRepeat : Bool

def Link.init : Link α := ⟨[], [], false, false⟩

/-- The protocol. -/
inductive LinkStep : Link α → Event α → Link α → Prop
  | queued (l : Link α) (a : α) : LinkStep l (.queued a) { l with pending := l.pending ++ [a] }
  | sent {l : Link α} {a : α} {rest : List α} : l.pending = a :: rest →
      l.flying = false ∨ l.mayRepeat = true →
      LinkStep l (.sent a) { l with flying := true, mayRepeat := false }
  | acked {l : Link α} {a : α} {rest : List α} : l.pending = a :: rest → l.flying = true →
      LinkStep l .acked ⟨l.finished ++ [a], rest, false, false⟩
  | ignored {l : Link α} : l.flying = false → LinkStep l .acked l
  | refused (l : Link α) : LinkStep l .refused { l with mayRepeat := l.flying }

/-- Whether a message is in flight after an event. -/
def flyingAfter (flying : Bool) : Event α → Bool
  | .sent _ => true
  | .acked => false
  | _ => flying

/-- A message has been sent and not yet acknowledged. -/
def awaiting (log : List (Event α)) : Bool := log.foldl flyingAfter false

/-- The messages that have been put into the queue. -/
def queueds (log : List (Event α)) : List α :=
  log.flatMap fun
    | .queued a => [a]
    | _ => []

theorem LinkStep.unique {l t t' : Link α} {e : Event α} (h : LinkStep l e t) (h' : LinkStep l e t') :
    t = t' := by
  cases h with
  | queued a => cases h' with | queued => rfl
  | sent => cases h' with | sent => rfl
  | refused => cases h' with | refused => rfl
  | ignored hl =>
      cases h' with
      | acked _ hl' => rw [hl] at hl'; cases hl'
      | ignored => rfl
  | acked hpending hl =>
      cases h' with
      | acked hpending' =>
          rw [hpending] at hpending'
          obtain ⟨rfl, rfl⟩ := List.cons.inj hpending'
          rfl
      | ignored hl' => rw [hl] at hl'; cases hl'

theorem Link.unique {log : List (Event α)} {l l' : Link α} (h : Explained LinkStep .init log l)
    (h' : Explained LinkStep .init log l') : l = l' :=
  explained_unique (fun _ _ _ _ hstep hstep' => hstep.unique hstep') h h'

theorem awaiting_snoc (log : List (Event α)) (e : Event α) :
    awaiting (log ++ [e]) = flyingAfter (awaiting log) e :=
  List.foldl_append

/-- What is in flight can be told from the log. -/
theorem Link.flying_eq {log : List (Event α)} {l : Link α} (h : Explained LinkStep .init log l) :
    l.flying = awaiting log := by
  induction h with
  | nil => rfl
  | snoc _ hstep ih =>
      rw [awaiting_snoc]
      cases hstep with
      | queued => exact ih
      | sent => rfl
      | acked => rfl
      | ignored hl => exact hl
      | refused => exact ih

/-- Messages are finished in the order in which they have been queued, and none is lost or added. -/
theorem Link.queueds_eq {log : List (Event α)} {l : Link α} (h : Explained LinkStep .init log l) :
    l.finished ++ l.pending = queueds log := by
  induction h with
  | nil => rfl
  | @snoc log s t e _ hstep ih =>
      have hsnoc : queueds (log ++ [e]) = queueds log ++ queueds [e] := List.flatMap_append
      rw [hsnoc, ← ih]
      cases hstep with
      | queued a => exact (List.append_assoc ..).symm
      | sent => exact (List.append_nil _).symm
      | ignored => exact (List.append_nil _).symm
      | refused => exact (List.append_nil _).symm
      | acked hpending =>
          rw [hpending]
          show (s.finished ++ [_]) ++ _ = (s.finished ++ _ :: _) ++ []
          rw [List.append_nil, List.append_assoc]
          rfl

end StopAndWait
