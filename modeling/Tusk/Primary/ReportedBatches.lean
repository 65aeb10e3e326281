import Tusk.Primary.Proposer

/-!
# What becomes of the batches that workers report

The `Proposer` queues every digest it is told of and drains the whole queue into each header. The
payload of a header is a map from digests to worker ids, so a digest that was queued twice is listed
once, with the worker that reported it last (`twice_listed_once`). Apart from this nothing is lost or
listed twice: the reports are the lists drained for the headers, one after the other, and then the
queue (`reports_conserved`).
-/

set_option autoImplicit false

namespace Tusk.Proposer

open Lib

/-- The digests the workers report, with the ids of the workers. -/
def reports (inputs : List (Bool × Event)) : List (Digest × WorkerId) :=
  inputs.filterMap fun input =>
    match input.2 with
    | .report digest workerId => some (digest, workerId)
    | _ => none

/-- The size of the queued digests in bytes. -/
def queuedSize (digests : List (Digest × WorkerId)) : ℕ :=
  (digests.map fun entry => entry.1.size).sum

/-- **The payload of a header lists some reports**: each digest once, with the worker that reported
it last, and so all reports when no digest is reported twice. -/
structure Lists (header : Header) (drained : List (Digest × WorkerId)) : Prop where
  last : ∀ digest, header.payload.get digest =
    (drained.reverse.find? fun entry => decide (entry.1 = digest)).map Prod.snd
  all : (drained.map Prod.fst).Nodup → header.payload.entries.Perm drained

section Runs

variable [Primitives] (proposer : Proposer)

/-- What is known of the reports that have come so far. -/
structure Conserved (reported : List (Digest × WorkerId)) (s : State)
    (drained : List (List (Digest × WorkerId))) : Prop where
  accounted : reported = drained.flatten ++ s.digests
  listed : List.Forall₂ Lists s.txCore drained
  payloadSize : s.payloadSize = queuedSize s.digests

variable {proposer} {reported : List (Digest × WorkerId)} {s : State}
  {drained : List (List (Digest × WorkerId))}

variable (proposer) in
/-- The header that is made lists the queue. -/
theorem lists_makeHeader (s : State) :
    ∃ header, (proposer.makeHeader s).txCore = s.txCore ++ [header] ∧ Lists header s.digests :=
  ⟨_, rfl, BTreeMap.get_ofList s.digests, BTreeMap.entries_ofList_perm⟩

/-- **The check** may drain the queue into a header. -/
theorem Conserved.checkProposal (conserved : Conserved reported s drained) (timerExpired : Bool) :
    ∃ drained', Conserved reported (proposer.checkProposal s timerExpired) drained' := by
  unfold Proposer.checkProposal
  split_ifs with enough silent
  · exact ⟨drained, conserved.accounted, conserved.listed, conserved.payloadSize⟩
  · obtain ⟨header, sent, lists⟩ := proposer.lists_makeHeader s
    refine ⟨drained ++ [s.digests], ?_, ?_, rfl⟩
    · rw [conserved.accounted, List.flatten_append, List.flatten_singleton]
      exact (List.append_nil _).symm
    · show List.Forall₂ Lists (proposer.makeHeader s).txCore _
      rw [sent]
      exact List.rel_append conserved.listed (.cons lists .nil)
  · exact ⟨drained, conserved⟩

/-- **A report** joins the queue, and other events leave it. -/
theorem Conserved.receive (conserved : Conserved reported s drained) (input : Bool × Event) :
    Conserved (reported ++ reports [input]) (proposer.receive s input.2) drained := by
  obtain ⟨expired, event⟩ := input
  cases event with
  | parents digests round =>
      unfold Proposer.receive
      dsimp only
      split_ifs <;>
        exact ⟨(List.append_nil _).trans conserved.accounted, conserved.listed, conserved.payloadSize⟩
  | report digest workerId =>
      refine ⟨?_, conserved.listed, ?_⟩
      · show reported ++ [(digest, workerId)] = drained.flatten ++ (s.digests ++ [(digest, workerId)])
        rw [conserved.accounted, List.append_assoc]
      · show s.payloadSize + digest.size = queuedSize (s.digests ++ [(digest, workerId)])
        rw [conserved.payloadSize]
        simp [queuedSize]
  | timer =>
      exact ⟨(List.append_nil _).trans conserved.accounted, conserved.listed, conserved.payloadSize⟩

/-- **No report is lost or listed twice.** In every run the reports are the lists drained for the
headers, one list a header, and then the queue. -/
theorem reports_conserved (proposer : Proposer) (inputs : List (Bool × Event)) :
    ∃ drained : List (List (Digest × WorkerId)),
      reports inputs = drained.flatten ++ (proposer.run inputs).digests ∧
        List.Forall₂ Lists (proposer.run inputs).txCore drained ∧
        (proposer.run inputs).payloadSize = queuedSize (proposer.run inputs).digests := by
  have conserved : ∃ drained, Conserved (reports inputs) (proposer.run inputs) drained := by
    induction inputs using List.reverseRecOn with
    | nil => exact ⟨[], rfl, .nil, rfl⟩
    | append_singleton inputs input ih =>
        obtain ⟨drained, conserved⟩ := ih
        have checked : ∃ drained', Conserved (reports inputs)
            (proposer.checkProposal (proposer.run inputs) input.1) drained' :=
          conserved.checkProposal input.1
        obtain ⟨drained', checked⟩ := checked
        refine ⟨drained', ?_⟩
        rw [reports, List.filterMap_append, run, List.foldl_append]
        exact checked.receive input
  obtain ⟨drained, conserved⟩ := conserved
  exact ⟨drained, conserved.accounted, conserved.listed, conserved.payloadSize⟩

end Runs

/-! ## A digest that is reported twice -/

/-- The proposer of a committee of one authority. -/
def aloneProposer : Proposer where
  name := ⟨1⟩
  committee := ⟨⟨[(⟨1⟩, .ofStake 1)], by decide⟩⟩
  adversaryFaults := 0
  adversarySeed := 0
  pauseBatchesDuringSilence := true
  requestSignature := nameSignature ⟨1⟩
  headerSize := 1000

section Alone

local instance aloneSign : Primitives := executable fun _ _ => true

/-- **A digest that two workers report is listed once.** -/
theorem twice_listed_once : ¬ ∀ (proposer : Proposer) (inputs : List (Bool × Event)),
    (reports inputs).Perm (((proposer.run inputs).txCore.flatMap fun h => h.payload.entries) ++
      (proposer.run inputs).digests) := by
  intro listed
  have lengths := (listed aloneProposer
    [(false, .report ⟨7⟩ 0), (false, .report ⟨7⟩ 1), (true, .timer)]).length_eq
  exact absurd lengths (by decide +kernel)

end Alone

end Tusk.Proposer
