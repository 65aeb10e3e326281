import Tusk.Consensus.Pool

/-!
# What the state knows of the delivered certificates

The state of a node is a partial record of what it received and of what it output. `Tracks`
collects the facts that hold of it throughout a run: the dag holds delivered certificates only;
it still holds those that are not below the last committed round of their author and within the
depth of the garbage collection, when no sum with that depth overflows; and the committed rounds are
the rounds of certificates that were output. Each of the three ways in which the state changes keeps
these facts (`tracks_new`, `Tracks.insert`, `Tracks.update`).
-/

set_option autoImplicit false

namespace Tusk.Consensus

open Lib

variable [Primitives]

/-- No sum of `gc_depth` and the round of one of the certificates overflows. -/
def NoOverflow (node : Consensus) (certificates : List Certificate) : Prop :=
  ∀ c ∈ certificates, c.round + node.gcDepth < 2 ^ 64

instance (node : Consensus) (certificates : List Certificate) :
    Decidable (node.NoOverflow certificates) :=
  inferInstanceAs (Decidable (∀ c ∈ certificates, _))

omit [Primitives] in
theorem NoOverflow.of_subset {node : Consensus} {certificates more : List Certificate}
    (fits : node.NoOverflow more) (subset : certificates ⊆ more) : node.NoOverflow certificates :=
  fun c member => fits c (subset member)

omit [Primitives] in
theorem NoOverflow.of_prefix {node : Consensus} {before after : List Certificate}
    (fits : node.NoOverflow (before ++ after)) : node.NoOverflow before :=
  fits.of_subset (List.subset_append_left _ _)

/-- The facts about the state of a node that received the certificates `delivered` and output the
certificates `output`. -/
structure Tracks (node : Consensus) (delivered : List Certificate) (state : State)
    (output : List Certificate) : Prop where
  fits : node.NoOverflow delivered
  /-- The dag holds certificates of the node under their author and round. -/
  entry : ∀ r n e, state.dag.entry r n = some e →
    (e.2 ∈ delivered ∨ e.2 ∈ Certificate.genesis node.committee) ∧ e.1 = e.2.digest ∧
      e.2.origin = n ∧ e.2.round = r
  /-- Certificates that the cleanup does not drop are there. -/
  kept : ∀ c ∈ delivered, state.committed c.origin ≤ c.round →
    state.lastCommittedRound ≤ c.round + node.gcDepth →
    state.dag.entry c.round c.origin = some (c.digest, c)
  /-- Genesis certificates in the dag are their author's last committed ones. -/
  genesis : ∀ n e, state.dag.entry 0 n = some e → HashMap.get state.lastCommitted n = some 0
  consistent : state.Consistent
  /-- Committed rounds are rounds of certificates that were output. -/
  committed_output : ∀ n, state.committed n = 0 ∨
    ∃ c ∈ output, c.origin = n ∧ c.round = state.committed n
  output_committed : ∀ c ∈ output, c.round ≤ state.committed c.origin
  output_delivered : ∀ c ∈ output, c ∈ delivered
  round_output : state.lastCommittedRound = 0 ∨
    ∃ c ∈ output, c.round = state.lastCommittedRound

variable {node : Consensus}

/-! ## The initial state -/

theorem entry_new {n : PublicKey} {r : ℕ} {e : Digest × Certificate}
    (found : (State.new (Certificate.genesis node.committee)).dag.entry r n = some e) :
    r = 0 ∧ e.1 = e.2.digest ∧ e.2.origin = n ∧ e.2 ∈ Certificate.genesis node.committee := by
  have distinct : (((Certificate.genesis node.committee).map
      fun x => (x.origin, (x.digest, x))).map Prod.fst).Nodup := by
    rw [List.map_map]
    refine List.Nodup.map_on ?_ (node.committee.authorities.keys_nodup.map ?_)
    · intro x member y member' same
      exact Certificate.eq_of_mem_genesis member member' same
    · intro name name' same
      exact congrArg Certificate.origin same
  obtain ⟨authorities, atRound, atName⟩ := Option.bind_eq_some_iff.mp found
  have single := (HashMap.get_ofList (by simp)).mp atRound
  rw [List.mem_singleton] at single
  cases single
  have member := (HashMap.get_ofList distinct).mp atName
  obtain ⟨x, isGenesis, same⟩ := List.mem_map.mp member
  cases same
  exact ⟨rfl, rfl, rfl, isGenesis⟩

theorem get_lastCommitted_new {n : PublicKey} :
    HashMap.get (State.new (Certificate.genesis node.committee)).lastCommitted n =
      ((State.new (Certificate.genesis node.committee)).dag.entry 0 n).map fun _ => 0 := by
  have single : HashMap.get (State.new (Certificate.genesis node.committee)).dag 0 =
      some (.ofList ((Certificate.genesis node.committee).map
        fun x => (x.origin, (x.digest, x)))) :=
    (HashMap.get_ofList (by simp)).mpr List.mem_cons_self
  have round : ∀ n e, (State.new (Certificate.genesis node.committee)).dag.entry 0 n = some e →
      e.2.round = 0 := fun n e found =>
    (Certificate.round_of_mem_genesis (entry_new found).2.2.2).1
  ext value
  simp only [Dag.entry, single, Option.bind_some] at round ⊢
  unfold State.new
  rw [HashMap.get_ofList (by simpa [Function.comp_def] using HashMap.items_keys_nodup _),
    List.mem_map, Option.map_eq_some_iff]
  constructor
  · rintro ⟨⟨n', e⟩, member, same⟩
    cases same
    have found := HashMap.mem_items.mp member
    exact ⟨e, found, (round _ _ found).symm⟩
  · rintro ⟨e, found, rfl⟩
    exact ⟨(n, e), HashMap.mem_items.mpr found, Prod.ext rfl (round _ _ found)⟩

theorem tracks_new : Tracks node [] (.new (Certificate.genesis node.committee)) [] where
  fits c member := by simp at member
  entry r n e found := by
    obtain ⟨rfl, digest, origin, member⟩ := entry_new found
    exact ⟨.inr member, digest, origin, (Certificate.round_of_mem_genesis member).1⟩
  kept c member := by simp at member
  genesis n e found := by rw [get_lastCommitted_new, found, Option.map_some]
  consistent := by
    refine (Nat.le_zero.mp (State.highest_values_le_iff.mpr fun name round found => ?_)).symm
    rw [get_lastCommitted_new] at found
    obtain ⟨e, -, rfl⟩ := Option.map_eq_some_iff.mp found
    exact le_rfl
  committed_output n := by
    left
    unfold State.committed
    rw [get_lastCommitted_new]
    cases (State.new (Certificate.genesis node.committee)).dag.entry 0 n <;> rfl
  output_committed c member := by simp at member
  output_delivered c member := by simp at member
  round_output := .inl rfl

/-! ## Steps -/

variable {delivered output : List Certificate} {state : State}

theorem Tracks.committed_le (tracks : Tracks node delivered state output) (n : PublicKey) :
    state.committed n ≤ state.lastCommittedRound := tracks.consistent.committed_le n

theorem Tracks.output_le (tracks : Tracks node delivered state output) {c : Certificate}
    (member : c ∈ output) : c.round ≤ state.lastCommittedRound :=
  (tracks.output_committed c member).trans (tracks.committed_le _)

/-- Receiving a certificate of the pool. -/
theorem Tracks.insert {pool : Pool node.committee} (tracks : Tracks node delivered state output)
    {c : Certificate} (delivery : pool.Delivery (delivered ++ [c]))
    (fits : node.NoOverflow (delivered ++ [c])) :
    Tracks node (delivered ++ [c]) { state with dag := state.dag.insert c } output where
  fits := fits
  entry r n e found := by
    rw [Dag.entry_insert] at found
    split_ifs at found with here
    · cases found
      exact ⟨.inl (by simp), rfl, here.2.symm, here.1.symm⟩
    · obtain ⟨known, rest⟩ := tracks.entry r n e found
      exact ⟨known.imp_left (List.mem_append_left _), rest⟩
  kept c' member above recent := by
    rw [Dag.entry_insert]
    split_ifs with here
    · obtain rfl := pool.unique c' (delivery.mem c' member) c (delivery.mem c (by simp)) here.2
        here.1
      rfl
    · rcases List.mem_append.mp member with old | new
      · exact tracks.kept c' old above recent
      · obtain rfl := List.mem_singleton.mp new
        exact absurd ⟨rfl, rfl⟩ here
  genesis n e found := by
    have positive := pool.round_pos c (delivery.mem c (by simp))
    rw [Dag.entry_insert, if_neg (by omega)] at found
    exact tracks.genesis n e found
  consistent := tracks.consistent
  committed_output := tracks.committed_output
  output_committed := tracks.output_committed
  output_delivered c' member := List.mem_append_left _ (tracks.output_delivered c' member)
  round_output := tracks.round_output

/-- Updating the state with a delivered certificate that is output. -/
theorem Tracks.update (tracks : Tracks node delivered state output) {x : Certificate}
    (member : x ∈ delivered) :
    Tracks node delivered (state.update x node.gcDepth) (output ++ [x]) where
  fits := tracks.fits
  entry r n e found := tracks.entry r n e (State.entry_update.mp found).1
  kept c isDelivered above recent := by
    have committed : state.committed c.origin ≤
        (state.update x node.gcDepth).committed c.origin := by
      rw [State.committed_update]
      split_ifs
      · exact le_max_left _ _
      · exact le_rfl
    have round : state.lastCommittedRound ≤
        (state.update x node.gcDepth).lastCommittedRound := by
      rw [State.lastCommittedRound_update tracks.consistent]
      exact le_max_left _ _
    refine State.entry_update.mpr
      ⟨tracks.kept c isDelivered (committed.trans above) (round.trans recent), above, ?_⟩
    rwa [horizon_eq (tracks.fits c isDelivered)]
  genesis n e found := by
    obtain ⟨before, above, -⟩ := State.entry_update.mp found
    have zero := tracks.genesis n e before
    unfold State.committed at above
    rw [State.get_lastCommitted_update] at above ⊢
    split_ifs at above ⊢ with same
    · simpa using above
    · exact zero
  consistent := State.consistent_update
  committed_output n := by
    rw [State.committed_update]
    split_ifs with same
    · right
      rcases le_total (state.committed n) x.round with le | ge
      · exact ⟨x, by simp, same.symm, (max_eq_right le).symm⟩
      · rw [max_eq_left ge]
        rcases tracks.committed_output n with zero | ⟨c, isOutput, origin, round⟩
        · exact ⟨x, by simp, same.symm, by omega⟩
        · exact ⟨c, List.mem_append_left _ isOutput, origin, round⟩
    · rcases tracks.committed_output n with zero | ⟨c, isOutput, rest⟩
      · exact .inl zero
      · exact .inr ⟨c, List.mem_append_left _ isOutput, rest⟩
  output_committed c isOutput := by
    rw [State.committed_update]
    rcases List.mem_append.mp isOutput with old | new
    · have bound := tracks.output_committed c old
      split_ifs
      · exact bound.trans (le_max_left _ _)
      · exact bound
    · obtain rfl := List.mem_singleton.mp new
      rw [if_pos rfl]
      exact le_max_right _ _
  output_delivered c isOutput := by
    rcases List.mem_append.mp isOutput with old | new
    · exact tracks.output_delivered c old
    · rwa [List.mem_singleton.mp new]
  round_output := by
    rw [State.lastCommittedRound_update tracks.consistent]
    rcases le_total state.lastCommittedRound x.round with le | ge
    · exact .inr ⟨x, by simp, (max_eq_right le).symm⟩
    · rw [max_eq_left ge]
      rcases tracks.round_output with zero | ⟨c, isOutput, round⟩
      · exact .inl zero
      · exact .inr ⟨c, List.mem_append_left _ isOutput, round⟩

/-- The committed rounds grow with what was output. -/
theorem Tracks.committed_mono {delivered' output' : List Certificate} {state' : State}
    (tracks : Tracks node delivered state output) (tracks' : Tracks node delivered' state' output')
    (subset : output ⊆ output') :
    state.committed ≤ state'.committed ∧ state.lastCommittedRound ≤ state'.lastCommittedRound := by
  refine ⟨fun n => ?_, ?_⟩
  · rcases tracks.committed_output n with zero | ⟨c, isOutput, rfl, round⟩
    · exact zero ▸ Nat.zero_le _
    · exact round ▸ tracks'.output_committed c (subset isOutput)
  · rcases tracks.round_output with zero | ⟨c, isOutput, round⟩
    · exact zero ▸ Nat.zero_le _
    · exact round ▸ tracks'.output_le (subset isOutput)

/-- What was output determines the committed rounds. -/
theorem Tracks.committed_eq {delivered' : List Certificate} {state' : State}
    (tracks : Tracks node delivered state output) (tracks' : Tracks node delivered' state' output) :
    state.committed = state'.committed ∧ state.lastCommittedRound = state'.lastCommittedRound := by
  have forth := tracks.committed_mono tracks' (List.Subset.refl _)
  have back := tracks'.committed_mono tracks (List.Subset.refl _)
  exact ⟨le_antisymm forth.1 back.1, le_antisymm forth.2 back.2⟩

end Tusk.Consensus
