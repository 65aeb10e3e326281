import Tusk.Primary.CoreActs

/-!
# How deep the Core calls itself

`process_header` calls `process_vote` with a vote of this primary, `process_vote` calls
`process_certificate` when the vote completes a certificate, and `process_certificate` calls
`process_header` again. The second vote of this primary meets an aggregator that has counted the
first, and is refused. So the calls end after the second `process_header`, and `processHeader`,
which stops there, satisfies the equation of the source (`processHeader_eq`).
-/

set_option autoImplicit false

namespace Tusk.Core

open Lib

variable [Primitives] {node : Core}

/-- What is called at a vote matters for votes of this primary, and with the aggregator as it is. -/
theorem processHeaderWith_congr {processVote processVote' : Vote → CoreM Unit} {h : Header}
    {s : State}
    (alike : ∀ vote s', vote.author = node.name → s'.votesAggregator = s.votesAggregator →
      (processVote vote).outcome s' = (processVote' vote).outcome s') :
    (node.processHeaderWith processVote h).outcome s =
      (node.processHeaderWith processVote' h).outcome s := by
  have step : ∀ s' s'', node.Inspects h s' s'' → s'.votesAggregator = s.votesAggregator →
      s''.votesAggregator = s.votesAggregator := by
    intro s' s'' inspects same
    cases inspects <;> exact same
  have aggregator := (node.checkHeader_follows h).keeps step trivial rfl
  apply Command.outcome_bind_congr
  intro ready _
  split
  · apply Command.outcome_bind_congr
    intro _ _
    apply Command.outcome_bind_congr
    intro s' found
    cases found
    split
    · rfl
    · apply Command.outcome_bind_congr
      intro _ _
      split
      · exact Command.interruptWith_congr (alike _ _ rfl aggregator)
      · rfl
  · rfl

omit [Primitives] in
/-- A second vote of an author is refused, whatever would be called at a certificate. -/
theorem processVoteWith_of_used (processCertificate : Certificate → CoreM Unit) {vote : Vote}
    {s : State} (used : vote.author ∈ s.votesAggregator.used) :
    (node.processVoteWith processCertificate vote).outcome s =
      (.error (.error (.authorityReuse vote.author)), s) := by
  unfold processVoteWith
  rw [Command.outcome_bind, Command.outcome_get]
  dsimp only
  rw [VotesAggregator.append_of_used used]
  rfl

omit [Primitives] in
/-- What is called at a certificate matters when the author of the vote has been counted. -/
theorem processVoteWith_congr {processCertificate processCertificate' : Certificate → CoreM Unit}
    {vote : Vote} {s : State}
    (alike : ∀ c s', vote.author ∈ s'.votesAggregator.used →
      (processCertificate c).outcome s' = (processCertificate' c).outcome s') :
    (node.processVoteWith processCertificate vote).outcome s =
      (node.processVoteWith processCertificate' vote).outcome s := by
  apply Command.outcome_bind_congr
  intro s' found
  cases found
  apply Command.outcome_bind_congr
  intro counted found
  obtain ⟨aggregator, assembled⟩ := counted
  have used := (VotesAggregator.append_ok (mapError_eq_ok_iff.mp found)).1
  apply Command.outcome_bind_congr
  intro _ _
  cases assembled with
  | none => rfl
  | some c =>
      apply Command.outcome_bind_congr
      intro _ _
      exact Command.interruptWith_congr (alike c _ used)

/-- The header of a certificate is processed first. -/
theorem processCertificateWith_congr {processHeader processHeader' : Header → CoreM Unit}
    {c : Certificate} {s : State}
    (alike : (processHeader c.header).outcome s = (processHeader' c.header).outcome s) :
    (node.processCertificateWith processHeader c).outcome s =
      (node.processCertificateWith processHeader' c).outcome s := by
  have embedded : (processEmbedded processHeader c).outcome s =
      (processEmbedded processHeader' c).outcome s := by
    apply Command.outcome_bind_congr
    intro s' found
    cases found
    split
    · exact alike
    · rfl
  unfold processCertificateWith
  rw [Command.outcome_bind, Command.outcome_bind, embedded]

/-- **The calls end before the depth is reached.** -/
theorem processHeaderTo_two (last last' : Header → CoreM Unit) :
    node.processHeaderTo last 2 = node.processHeaderTo last' 2 := by
  funext h
  apply Command.ext
  intro s
  apply processHeaderWith_congr
  intro vote s' ours _
  apply processVoteWith_congr
  intro c s'' used
  apply processCertificateWith_congr
  apply processHeaderWith_congr
  intro vote' s''' ours' aggregator
  have reused : vote'.author ∈ s'''.votesAggregator.used := by
    rw [aggregator, ours', ← ours]
    exact used
  rw [processVoteWith_of_used _ reused, processVoteWith_of_used _ reused]

/-- **The three functions satisfy the equations of the source.** -/
theorem processHeader_eq : node.processHeader = node.processHeaderWith node.processVote :=
  processHeaderTo_two (fun _ => pure ()) (node.processHeaderTo (fun _ => pure ()) 1)

end Tusk.Core
