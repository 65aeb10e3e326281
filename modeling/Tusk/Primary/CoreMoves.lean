import Tusk.Primary.CoreActs

/-!
# What a step of the Core can do

`Moves` lists the changes the Core makes to its state while it processes a message, without the
details of `Acts`: it tells which headers and certificates are at hand, and what has been checked of
them when they are stored, voted for and delivered. Every invariant of the Core that does not depend
on which votes are counted is an invariant of the moves and of the cleanup (`step_invariant`).
-/

set_option autoImplicit false

namespace Tusk.Core

open Lib

variable [Primitives] (node : Core)

/-- The changes made while a header is checked. -/
inductive Checks (header : Header) : State → State → Prop where
  | start (s : State) : Checks header s (s.startProcessing header)
  | suspend (s : State) (message : WaiterMessage) (ours : message.deliver = header) :
      Checks header s (s.syncHeader message)

/-- The changes made while a message is processed that hands over headers and certificates. -/
inductive Moves (handled : Header → Prop) (carried : Certificate → Prop) :
    State → State → Prop where
  | check {s s' : State} {h : Header} (subject : handled h) (checks : Checks h s s') :
      Moves handled carried s s'
  | store {s : State} {h : Header} (subject : handled h) (accepts : node.Accepts s h) :
      Moves handled carried s (s.storeHeader h)
  | vote {s : State} {h : Header} (subject : handled h) (accepts : node.Accepts s h)
      (first : h.author ∉ HashMap.bucket s.lastVoted h.round) :
      Moves handled carried (s.storeHeader h) ((s.storeHeader h).createVote h (node.voteFor h))
  | send (s : State) (addresses : List SocketAddr) (message : PrimaryMessage) :
      Moves handled carried s (s.send addresses message)
  | count (s : State) (aggregator : VotesAggregator) :
      Moves handled carried s { s with votesAggregator := aggregator }
  | suspend {s : State} {c : Certificate} (subject : carried c) :
      Moves handled carried s (s.syncCertificate c)
  | deliver {s : State} {c : Certificate} (subject : carried c)
      (parents : ∀ digest ∈ c.header.parents.toList, node.HasParent s.store digest) :
      Moves handled carried s (s.deliver node.committee c)

/-- The headers processed at a message: what it hands over, and the current header when its
certificate is completed. -/
def Handled (node : Core) (s : State) (input : Input) (h : Header) : Prop :=
  node.Hands s input h ∨ (node.Completes input ∧ h = (s.opened input).currentHeader)

/-- The certificates processed at a message: what it hands over and those it completes. -/
def Carried (node : Core) (s : State) (input : Input) (c : Certificate) : Prop :=
  node.Carries s input c ∨ (node.Completes input ∧ c.header = (s.opened input).currentHeader)

variable {node} {s : State} {input : Input}

theorem Inspects.checks {header : Header} {t t' : State} (inspects : node.Inspects header t t') :
    Checks header t t' := by
  cases inspects with
  | start => exact .start _
  | syncParents => exact .suspend _ _ rfl
  | syncBatches => exact .suspend _ _ rfl

theorem handled_of_carried {c : Certificate} (subject : node.Carried s input c) :
    node.Handled s input c.header := by
  rcases subject with carries | current
  · exact .inl (.embedded carries)
  · exact .inr current

theorem HeaderAtHand.handled {t : State} {h : Header} (atHand : node.HeaderAtHand s input t h) :
    node.Handled s input h :=
  atHand.imp_right fun ⟨completes, same, _⟩ => ⟨completes, same⟩

theorem CertificateAtHand.carried {t : State} {c : Certificate}
    (atHand : node.CertificateAtHand s input t c) : node.Carried s input c :=
  atHand.imp_right fun ⟨completes, same, _⟩ => ⟨completes, same⟩

/-- An act is one move, and assembling a certificate is two. -/
theorem Acts.moves {t t' : State} (acts : node.Acts s input t t') :
    Relation.ReflTransGen (node.Moves (node.Handled s input) (node.Carried s input)) t t' := by
  cases acts with
  | inspect subject inspects => exact .single (.check subject.handled inspects.checks)
  | store subject accepts => exact .single (.store subject.handled accepts)
  | vote subject accepts first _ => exact .single (.vote subject.handled accepts first)
  | sendVote => exact .single (.send _ _ _)
  | announce => exact .single (.send _ _ _)
  | count => exact .single (.count _ _)
  | assemble => exact .head (.count _ _) (.single (.send _ _ _))
  | suspend subject => exact .single (.suspend subject.carried)
  | deliver subject parents => exact .single (.deliver subject.carried parents)

/-- **An invariant of the moves is kept by a step**, and holds of what the step leaves when it
survives the cleanup and the stop of the node. -/
theorem step_invariant {during after : State → Prop} (start : during (s.opened input))
    (moves : ∀ t t', node.Moves (node.Handled s input) (node.Carried s input) t t' → during t →
      during t')
    (cleanup : ∀ t, during t → after (t.cleanup node.gcDepth))
    (halt : ∀ t p, during t → after { t with halted := some p }) : after (node.step s input) :=
  step_acts start (fun _ _ acts => Command.kept_of_steps moves acts.moves) cleanup halt

/-- **An invariant of the moves is kept by a step** when the end of a step does not touch it. -/
theorem step_invariant_settles {during after : State → Prop} (start : during (s.opened input))
    (moves : ∀ t t', node.Moves (node.Handled s input) (node.Carried s input) t t' → during t →
      during t')
    (settled : ∀ t t', Settles t t' → during t → after t') : after (node.step s input) :=
  step_acts_settles start (fun _ _ acts => Command.kept_of_steps moves acts.moves) settled

/-- **What every move keeps is kept by a message** when its end and a new header of this primary do not
touch it. -/
theorem advance_kept_moves (holds : State → Prop) (before : holds s) (opened : holds (s.opened input))
    (moves : ∀ t t', node.Moves (node.Handled s input) (node.Carried s input) t t' → holds t →
      holds t')
    (settled : ∀ t t', Settles t t' → holds t → holds t') : holds (node.advance s (.core input)) :=
  advance_kept holds before opened (fun _ _ acts => Command.kept_of_steps moves acts.moves) settled

end Tusk.Core
