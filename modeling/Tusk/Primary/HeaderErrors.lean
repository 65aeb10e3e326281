import Tusk.Primary.ParentChecks

/-!
# When the Core refuses a header

Checking a header fails when its parents are refused, and only then (`checkHeader_raises`,
`checkHeader_returns`). Voting for a header does not fail, but an assertion in it may. So what
`process_certificate` reports as an error is that the parents of the embedded header are refused
(`refuses_of_rejected`).
-/

set_option autoImplicit false

namespace Tusk.Core

open Lib

variable [Primitives] (node : Core)

/-! ## What is returned -/

theorem getParents_returns (header : Header) (store : Store) :
    Command.Follows (node.Inspects header) (fun t => t.store = store) (node.getParents header)
      fun parents t => t.store = store ∧ ∃ found missing,
        node.readParents store header.parents.toList = .ok (found, missing) ∧
          parents = if missing = [] then found else [] := by
  unfold getParents
  apply Command.Follows.bind_get
  intro s
  apply bind_check
  rintro ⟨found, missing⟩ read
  dsimp only
  split
  · next none =>
      obtain rfl := List.isEmpty_iff.mp none
      apply Command.Follows.pure
      rintro t ⟨rfl, rfl⟩
      exact ⟨rfl, found, [], read, rfl⟩
  · next some =>
      have absent : missing ≠ [] := fun none => some (List.isEmpty_iff.mpr none)
      apply Command.Follows.bind_modify fun t => t.store = store ∧ s.store = store
      · rintro t ⟨rfl, -⟩
        exact .syncParents read absent
      · rintro t ⟨rfl, same⟩
        exact ⟨same, same⟩
      · apply Command.Follows.pure
        rintro t ⟨same, rfl⟩
        exact ⟨same, found, missing, read, (if_neg absent).symm⟩

/-- A header is not refused when the checks that are made succeed. -/
theorem not_refuses_of_read {header : Header} {store : Store} {found : List Certificate}
    {missing : List Digest}
    (read : node.readParents store header.parents.toList = .ok (found, missing))
    (checked : missing = [] → found ≠ [] → node.checkParents header found = .ok ()) :
    ¬ node.Refuses store header := by
  rw [Refuses, not_not, checkStored, read]
  simp only [bind, Except.bind]
  split_ifs with complete
  · exact checked complete.1 complete.2
  · rfl

/-- Checking a header returns when its parents are not refused, and it does not touch the store. -/
theorem checkHeader_returns (header : Header) (store : Store) :
    Command.Follows (node.Inspects header) (fun t => t.store = store) (node.checkHeader header)
      fun ready t => t.store = store ∧ ¬ node.Refuses store header ∧
        (ready = true → node.Passes store header) := by
  unfold checkHeader
  apply Command.Follows.bind_modify fun t => t.store = store
  · exact fun s _ => .start s
  · exact fun _ same => same
  apply Command.Follows.bind (node.getParents_returns header store)
  intro parents
  split
  · next none =>
      apply Command.Follows.pure
      rintro t ⟨same, found, missing, read, rfl⟩
      refine ⟨same, node.not_refuses_of_read read fun complete nonempty => ?_,
        fun impossible => nomatch impossible⟩
      rw [if_pos complete] at none
      exact absurd (List.isEmpty_iff.mp none) nonempty
  · next some =>
      apply bind_check
      intro _ checked
      have payload := node.missingPayload_follows header
        (fun store' => store' = store ∧ node.Passes store header) (by
          rintro _ ⟨rfl, passes⟩
          obtain ⟨parents, read, -⟩ := passes_iff.mp passes
          exact ⟨parents, read⟩)
      apply Command.Follows.bind (payload.weaken ?_ fun _ _ => id)
      · intro missing
        exact .pure fun t before => ⟨before.1.1, before.1.2.2, fun _ => before.1.2⟩
      · rintro t ⟨same, found, missing, read, rfl⟩
        by_cases complete : missing = []
        · rw [if_pos complete] at checked
          subst complete
          exact ⟨same, passes_iff.mpr ⟨found, read, .inr checked⟩⟩
        · rw [if_neg complete] at some
          exact absurd rfl some

/-! ## What is raised -/

omit [Primitives] in
/-- A check may fail, or the rest of the computation may. -/
theorem raises_check {α β : Type} {pre : State → Prop} {result : Except DagError α}
    {next : α → CoreM β} {reason : Interrupt → Prop}
    (fails : ∀ e, result = .error e → ∀ t, pre t → reason (.error e))
    (rest : ∀ a, result = .ok a → Command.Raises pre (next a) reason) :
    Command.Raises pre (check result >>= next) reason := by
  apply Command.Raises.bind_ofExcept
  · intro e found
    obtain ⟨e', failed, rfl⟩ := mapError_eq_error_iff.mp found
    exact fails e' failed
  · exact fun a found => rest a (mapError_eq_ok_iff.mp found)

theorem getParents_raises (header : Header) (store : Store) :
    Command.Raises (fun t => t.store = store) (node.getParents header)
      fun i => (∃ e, i = .error e) ∧ node.Refuses store header := by
  unfold getParents
  refine .bind_get fun s => raises_check ?_ ?_
  · rintro e failed t ⟨rfl, rfl⟩
    refine ⟨⟨e, rfl⟩, ?_⟩
    rw [Refuses, checkStored, failed]
    intro impossible
    cases impossible
  · rintro ⟨found, missing⟩ -
    dsimp only
    split
    · exact .pure
    · exact .andThen .modify fun _ => .pure

omit [Primitives] in
theorem missingPayload_raises (header : Header) :
    Command.Raises (fun _ => True) (node.missingPayload header) fun _ => False := by
  unfold missingPayload
  split
  · exact .pure
  · refine .bind_get fun s => ?_
    dsimp only
    split
    · exact .pure
    · exact .andThen .modify fun _ => .pure

/-- Checking a header fails for its parents, and it does not stop the node. -/
theorem checkHeader_raises (header : Header) (store : Store) :
    Command.Raises (fun t => t.store = store) (node.checkHeader header)
      fun i => (∃ e, i = .error e) ∧ node.Refuses store header := by
  unfold checkHeader
  refine .bind_modify (fun t => t.store = store) (fun _ same => same) ?_
  refine (node.getParents_raises header store).bind (node.getParents_returns header store)
    fun parents => ?_
  split
  · exact .pure
  · next some =>
      refine raises_check ?_ fun _ _ => ?_
      · rintro e failed t ⟨same, found, missing, read, rfl⟩
        have nonempty : found ≠ [] ∧ missing = [] := by
          split_ifs at some with complete
          · exact ⟨fun none => some (List.isEmpty_iff.mpr none), complete⟩
          · exact absurd rfl some
        obtain ⟨nonempty, rfl⟩ := nonempty
        rw [if_pos rfl] at failed
        refine ⟨⟨e, rfl⟩, refuses_iff.mpr (.inr ⟨found, read, nonempty, ?_⟩)⟩
        rw [failed]
        exact fun impossible => nomatch impossible
      · exact ((node.missingPayload_raises header).weaken (fun _ _ => trivial)
          fun _ => False.elim).andThen fun _ => .pure

/-- Voting for a header does not fail, but it may stop the node. -/
theorem castVote_raises (processVote : Vote → CoreM Unit) (header : Header) :
    Command.Raises (fun _ => True) (node.castVote processVote header)
      fun e => ∃ p, e = .panic p := by
  have voted : ∀ vote, Command.Raises (fun _ => True)
      ((processVote vote).interruptWith (Interrupt.expect .ownVote)) fun e => ∃ p, e = .panic p := by
    intro vote
    have anyhow : Command.Raises (fun _ => True) (processVote vote) fun _ => True :=
      fun _ _ _ _ => trivial
    refine anyhow.interruptWith fun e _ => ?_
    cases e with
    | error e => exact ⟨_, rfl⟩
    | panic p => exact ⟨p, rfl⟩
  unfold castVote
  refine .bind_get fun s => ?_
  split
  · exact .pure
  · refine .bind_modify (fun _ => True) (fun _ _ => trivial) ?_
    split
    · exact voted _
    · refine .bind_ofExcept (fun e failed _ _ => ?_) fun _ _ => .modify
      obtain ⟨e', -, rfl⟩ := mapError_eq_error_iff.mp failed
      exact ⟨_, rfl⟩

theorem deliverCertificate_raises (c : Certificate) :
    Command.Raises (fun _ => True) (node.deliverCertificate c) fun _ => False := by
  unfold deliverCertificate
  refine .bind_get fun t => ?_
  split
  · exact .pure
  · exact .andThen .modify fun _ => .pure

/-- Processing a certificate fails only where its header is processed. -/
theorem processCertificate_raises {pre : State → Prop} {reason : Interrupt → Prop} {c : Certificate}
    (onHeader : Command.Raises
      (fun t => pre t ∧ c.header.id ∉ HashMap.bucket t.processing c.header.round)
      (node.processHeader c.header) reason) :
    Command.Raises pre (node.processCertificate c) reason := by
  have embedded : Command.Raises pre (processEmbedded node.processHeader c) reason := by
    refine .bind_get fun t => ?_
    split
    · next absent =>
        refine onHeader.weaken ?_ fun _ => id
        rintro _ ⟨rfl, before⟩
        exact ⟨before, absent⟩
    · exact .pure
  refine embedded.andThen fun _ => .andThen ((node.deliverCertificate_raises c).weaken
    (fun _ => id) fun _ => False.elim) fun _ => ?_
  split
  · exact .modify
  · exact .pure

/-- **A certificate is rejected for the parents of its header.** -/
theorem refuses_of_rejected {s : State} {c : Certificate} {e : DagError}
    (rejected : ((node.processCertificate c).outcome s).1 = .error (.error e)) :
    node.Refuses s.store c.header := by
  have header : Command.Raises (fun t => t.store = s.store) (node.processHeader c.header)
      fun i => (∃ p, i = .panic p) ∨ node.Refuses s.store c.header := by
    refine Command.Raises.bind ((node.checkHeader_raises c.header s.store).weaken (fun _ => id)
      fun _ raised => .inr raised.2) (node.checkHeader_returns c.header s.store) fun ready => ?_
    split
    · exact .bind_modify (fun _ => True) (fun _ _ => trivial)
        ((node.castVote_raises _ c.header).weaken (fun _ => id) fun _ => .inl)
    · exact .pure
  have whole := node.processCertificate_raises (header.weaken (fun _ before => before.1) fun _ => id)
  rcases whole s rfl _ rejected with ⟨p, impossible⟩ | refuses
  · cases impossible
  · exact refuses

end Tusk.Core
