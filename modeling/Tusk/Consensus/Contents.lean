import Tusk.Consensus.FinitePool

/-!
# What the consensus reads of a certificate

Two certificates of one header may carry the votes of different quorums, and a header may be signed more
than once. The consensus reads neither the votes nor the signature. So a run on the certificates without
both is the run on the certificates, with both dropped from everything that comes out (`run_content`).

The proof goes through the functions of the consensus in their order. Each of them commutes with dropping
the votes and the signatures.
-/

set_option autoImplicit false

namespace Tusk

open Lib

namespace Certificate

/-- A certificate without its votes and without the signature of its header. -/
def content (certificate : Certificate) : Certificate :=
  { header := { certificate.header with signature := default }
    votes := [] }

@[simp] theorem content_id (certificate : Certificate) :
    certificate.content.header.id = certificate.header.id := rfl

@[simp] theorem content_parents (certificate : Certificate) :
    certificate.content.header.parents = certificate.header.parents := rfl

@[simp] theorem content_round (certificate : Certificate) :
    certificate.content.round = certificate.round := rfl

@[simp] theorem content_origin (certificate : Certificate) :
    certificate.content.origin = certificate.origin := rfl

@[simp] theorem content_digest [Primitives] (certificate : Certificate) :
    certificate.content.digest = certificate.digest := rfl

@[simp] theorem partialEq_content (certificate other : Certificate) :
    certificate.content.partialEq other.content = certificate.partialEq other := rfl

/-- Certificates of one author, round, payload, parents and id have one content. -/
theorem content_eq_iff {certificate other : Certificate} :
    certificate.content = other.content ↔
      certificate.origin = other.origin ∧ certificate.round = other.round ∧
        certificate.header.payload = other.header.payload ∧
        certificate.header.parents = other.header.parents ∧
        certificate.header.id = other.header.id := by
  obtain ⟨⟨_, _, _, _, _, _, _⟩, _⟩ := certificate
  obtain ⟨⟨_, _, _, _, _, _, _⟩, _⟩ := other
  simp [content, origin, round]

end Certificate

namespace Consensus

/-- An entry of the dag without votes and signature. -/
def contentOf (entry : Digest × Certificate) : Digest × Certificate := (entry.1, entry.2.content)

/-- The dag without votes and signatures. -/
def Dag.content (dag : Dag) : Dag := HashMap.mapValues (HashMap.mapValues contentOf) dag

/-- The state without votes and signatures. -/
def State.content (state : State) : State := { state with dag := state.dag.content }

/-! ## The dag and the state -/

namespace Dag

theorem get_content (dag : Dag) (round : ℕ) :
    HashMap.get dag.content round = (HashMap.get dag round).map (HashMap.mapValues contentOf) :=
  HashMap.get_mapValues _ _ _

theorem entry_content (dag : Dag) (round : ℕ) (name : PublicKey) :
    dag.content.entry round name = (dag.entry round name).map contentOf := by
  unfold entry
  rw [get_content, Option.bind_map, Option.map_bind]
  exact congrArg _ (funext fun authorities => HashMap.get_mapValues _ _ _)

theorem cleanup_content (gcDepth lastCommittedRound : ℕ) (dag : Dag) (name : PublicKey) (round : ℕ) :
    cleanup gcDepth lastCommittedRound dag.content name round =
      (cleanup gcDepth lastCommittedRound dag name round).content := by
  refine HashMap.retain_mapValues _ (fun r authorities => ?_) dag
  have kept : HashMap.retain (fun n (entry : Digest × Certificate) =>
        if n ≠ name ∨ round ≤ r then some entry else none) (HashMap.mapValues contentOf authorities) =
      HashMap.mapValues contentOf (HashMap.retain (fun n entry =>
        if n ≠ name ∨ round ≤ r then some entry else none) authorities) := by
    refine HashMap.retain_mapValues _ (fun n entry => ?_) authorities
    split_ifs <;> rfl
  dsimp only
  rw [kept, HashMap.items_mapValues]
  simp only [ne_eq, List.map_eq_nil_iff]
  split_ifs <;> rfl

variable [Primitives]

theorem insert_content (dag : Dag) (certificate : Certificate) :
    dag.content.insert certificate.content = (dag.insert certificate).content := by
  refine HashMap.upsert_mapValues _ (fun authorities => ?_) dag _
  have found : (authorities.map (HashMap.mapValues contentOf)).getD ∅ =
      HashMap.mapValues contentOf (authorities.getD ∅) := by
    cases authorities <;> rfl
  rw [found]
  exact HashMap.insert_mapValues contentOf _ _ (certificate.digest, certificate)

end Dag

theorem State.update_content (state : State) (certificate : Certificate) (gcDepth : ℕ) :
    state.content.update certificate.content gcDepth = (state.update certificate gcDepth).content := by
  have passes : ∀ (lastCommittedRound : ℕ) (entries : List (PublicKey × ℕ)) (dag : Dag),
      entries.foldl (fun dag entry => Dag.cleanup gcDepth lastCommittedRound dag entry.1 entry.2)
          dag.content =
        (entries.foldl (fun dag entry => Dag.cleanup gcDepth lastCommittedRound dag entry.1 entry.2)
          dag).content := by
    intro lastCommittedRound entries
    induction entries with
    | nil => exact fun _ => rfl
    | cons entry entries ih =>
        intro dag
        rw [List.foldl_cons, List.foldl_cons, Dag.cleanup_content, ih]
  unfold update State.content
  simp only [Certificate.content_origin, Certificate.content_round]
  exact congrArg _ (passes _ _ _)

theorem State.new_content [Primitives] (committee : Committee) :
    (State.new (Certificate.genesis committee)).content =
      State.new (Certificate.genesis committee) := by
  have genesis : HashMap.mapValues contentOf (.ofList
        ((Certificate.genesis committee).map fun x => (x.origin, (x.digest, x)))) =
      .ofList ((Certificate.genesis committee).map fun x => (x.origin, (x.digest, x))) := by
    rw [← HashMap.ofList_map, List.map_map, Certificate.genesis, List.map_map, List.map_map]
    rfl
  unfold State.new State.content Dag.content
  dsimp only
  rw [← HashMap.ofList_map, List.map_singleton, genesis]

/-! ## Leaders -/

variable (self : Consensus)

theorem leader_content (round : ℕ) (dag : Dag) :
    self.leader round dag.content = (self.leader round dag).map contentOf := by
  unfold leader
  rw [Option.map_bind]
  exact congrArg _ (funext fun name => dag.entry_content round name)

theorem parentsAt_content (dag : Dag) (parents : List Certificate) (round : ℕ) :
    parentsAt dag.content (parents.map Certificate.content) round =
      (parentsAt dag parents round).map (List.map Certificate.content) := by
  unfold parentsAt
  rw [Dag.get_content]
  cases HashMap.get dag round with
  | none => rfl
  | some authorities =>
      simp only [Option.map_some, Option.bind_eq_bind, Option.bind_some, Option.pure_def,
        HashMap.values_mapValues, List.filter_map, List.map_map, List.any_map]
      rfl

theorem linked_content (leader prevLeader : Certificate) (dag : Dag) :
    linked leader.content prevLeader.content dag.content = linked leader prevLeader dag := by
  have walk : ∀ (rounds : List ℕ) (parents : List Certificate),
      rounds.foldlM (parentsAt dag.content) (parents.map Certificate.content) =
        (rounds.foldlM (parentsAt dag) parents).map (List.map Certificate.content) := by
    intro rounds
    induction rounds with
    | nil => exact fun _ => rfl
    | cons round rounds ih =>
        intro parents
        rw [List.foldlM_cons, List.foldlM_cons, parentsAt_content]
        cases parentsAt dag parents round with
        | none => rfl
        | some parents => exact ih parents
  have start := walk (List.range' prevLeader.round (leader.round - prevLeader.round)).reverse [leader]
  unfold linked
  simp only [Certificate.content_round]
  rw [List.map_singleton] at start
  rw [start]
  cases (List.range' prevLeader.round (leader.round - prevLeader.round)).reverse.foldlM
      (parentsAt dag) [leader] with
  | none => rfl
  | some parents => simp [Function.comp_def]

theorem orderLeadersFrom_content (dag : Dag) (rounds : List ℕ) (leader : Certificate) :
    self.orderLeadersFrom dag.content rounds leader.content =
      (self.orderLeadersFrom dag rounds leader).map (List.map Certificate.content) := by
  induction rounds generalizing leader with
  | nil => rfl
  | cons r rounds ih =>
      unfold orderLeadersFrom
      rw [leader_content]
      cases self.leader r dag with
      | none => exact ih leader
      | some entry =>
          simp only [Option.map_some, contentOf, linked_content, ih]
          cases linked leader entry.2 dag with
          | none => rfl
          | some path =>
              cases path with
              | true =>
                  simp only [Option.bind_eq_bind, Option.bind_some, if_true]
                  cases self.orderLeadersFrom dag rounds entry.2 <;> rfl
              | false => rfl

theorem orderLeaders_content (leader : Certificate) (state : State) :
    self.orderLeaders leader.content state.content =
      (self.orderLeaders leader state).map (List.map Certificate.content) := by
  unfold orderLeaders State.content
  simp only [Certificate.content_round, orderLeadersFrom_content]
  cases self.orderLeadersFrom state.dag
    (leaderRounds state.lastCommittedRound leader.round) leader <;> rfl

/-! ## The sub-dag of a leader -/

theorem certificates_content (dag : Dag) :
    dag.content.certificates = dag.certificates.map contentOf := by
  unfold Dag.certificates Dag.content
  rw [HashMap.values_mapValues, List.flatMap_map, List.map_flatMap]
  exact congrArg (fun f => List.flatMap f (HashMap.values dag))
    (funext fun authorities => HashMap.values_mapValues _ _)

theorem parentToOrder_content (state : State) (x : Certificate) (parent : Digest) :
    state.content.parentToOrder x.content parent = (state.parentToOrder x parent).map contentOf := by
  unfold State.parentToOrder State.content
  simp only [Dag.get_content, Certificate.content_round]
  cases HashMap.get state.dag (precedingRound x.round) with
  | none => rfl
  | some authorities =>
      simp only [Option.map_some, Option.bind_some, HashMap.values_mapValues, List.find?_map,
        Option.filter_map]
      rfl

theorem parentsToOrder_content (state : State) (x : Certificate) :
    state.content.parentsToOrder x.content = (state.parentsToOrder x).map contentOf := by
  unfold State.parentsToOrder
  rw [List.map_filterMap, Certificate.content_parents]
  exact List.filterMap_congr fun parent _ => parentToOrder_content state x parent

theorem arrange_content (state : State) (ordered : List Certificate) :
    self.arrange state.content (ordered.map Certificate.content) =
      (self.arrange state ordered).map Certificate.content := by
  unfold arrange
  have kept : (ordered.map Certificate.content).filter
        (fun x => decide (state.content.lastCommittedRound ≤ horizon self.gcDepth x.round)) =
      (ordered.filter fun x =>
        decide (state.lastCommittedRound ≤ horizon self.gcDepth x.round)).map Certificate.content :=
    List.filter_map ..
  rw [kept]
  exact (List.map_insertionSort _ _ Certificate.content _ fun _ _ _ _ => Iff.rfl).symm

section Runs

variable [Primitives]

theorem orderDag_content (leader : Certificate) (state : State) :
    self.orderDag leader.content state.content =
      (self.orderDag leader state).map (List.map Certificate.content) := by
  have found : Worklist.search Prod.fst (fun x => state.content.parentsToOrder x.2)
        (state.dag.certificates.length + 1) ([(leader.digest, leader)].map contentOf) [] =
      (Worklist.search Prod.fst (fun x => state.parentsToOrder x.2)
        (state.dag.certificates.length + 1) [(leader.digest, leader)] []).map (List.map contentOf) :=
    Worklist.search_map (fun _ => rfl) (fun x => parentsToOrder_content state x.2) _ _ _
  have size : state.content.dag.certificates.length = state.dag.certificates.length := by
    show state.dag.content.certificates.length = _
    rw [certificates_content, List.length_map]
  unfold orderDag
  rw [size, Certificate.content_digest]
  change (Worklist.search Prod.fst (fun x => state.content.parentsToOrder x.2)
    (state.dag.certificates.length + 1) ([(leader.digest, leader)].map contentOf) []).bind _ = _
  rw [found]
  cases Worklist.search Prod.fst (fun x : Digest × Certificate => state.parentsToOrder x.2)
      (state.dag.certificates.length + 1) [(leader.digest, leader)] [] with
  | none => rfl
  | some ordered =>
      have images : (ordered.map contentOf).map Prod.snd =
          (ordered.map Prod.snd).map Certificate.content := by
        rw [List.map_map, List.map_map]
        rfl
      simp only [Option.map_some, Option.bind_some, Option.bind_eq_bind, Option.pure_def, images,
        arrange_content]

theorem isLeader_content (x : Certificate) (dag : Dag) :
    self.isLeader x.content dag.content = self.isLeader x dag := by
  unfold isLeader
  rw [Certificate.content_round, leader_content]
  cases self.leader x.round dag <;> rfl

/-- A committed leader without votes and signatures. -/
def SubDag.content (subDag : SubDag) : SubDag :=
  ⟨subDag.before.content, subDag.leader.content,
    subDag.sequence.map fun entry => (entry.1.content, entry.2)⟩

/-- A result of the consensus without votes and signatures. -/
def resultContent (result : State × List SubDag) : State × List SubDag :=
  (result.1.content, result.2.map SubDag.content)

theorem flattenFrom_content (ordered : List Certificate) (state : State) :
    self.flattenFrom (ordered.map Certificate.content) state.content =
      ((self.flattenFrom ordered state).1.content,
        (self.flattenFrom ordered state).2.map fun entry => (entry.1.content, entry.2)) := by
  induction ordered generalizing state with
  | nil => rfl
  | cons x ordered ih =>
      simp only [List.map_cons, flattenFrom, State.update_content, ih]
      rw [show state.content.dag = state.dag.content from rfl, isLeader_content]

theorem flatten_content (leader : Certificate) (state : State) :
    self.flatten leader.content state.content =
      (self.flatten leader state).map fun result => (result.1.content, result.2.content) := by
  unfold flatten
  rw [orderDag_content]
  cases self.orderDag leader state with
  | none => rfl
  | some ordered =>
      simp only [Option.map_some, Option.bind_eq_bind, Option.bind_some, flattenFrom_content]
      rfl

theorem flattenAll_content (leaders : List Certificate) (state : State) :
    self.flattenAll (leaders.map Certificate.content) state.content =
      (self.flattenAll leaders state).map resultContent := by
  induction leaders generalizing state with
  | nil => rfl
  | cons leader leaders ih =>
      rw [List.map_cons, flattenAll, flattenAll, flatten_content]
      cases self.flatten leader state with
      | none => rfl
      | some result =>
          simp only [Option.map_some, Option.bind_eq_bind, Option.bind_some, ih]
          cases self.flattenAll leaders result.1 <;> rfl

/-! ## The main loop -/

omit [Primitives] in
theorem support_content (authorities : HashMap PublicKey (Digest × Certificate)) (digest : Digest) :
    self.support (HashMap.mapValues contentOf authorities) digest = self.support authorities digest := by
  unfold support
  rw [HashMap.values_mapValues, List.filter_map, List.map_map]
  rfl

theorem commit_content (state : State) (leaderRound : ℕ) :
    self.commit state.content leaderRound = (self.commit state leaderRound).map resultContent := by
  unfold commit
  rw [show state.content.dag = state.dag.content from rfl, leader_content]
  cases self.leader leaderRound state.dag with
  | none => rfl
  | some entry =>
      simp only [Option.map_some, contentOf, Dag.get_content]
      cases HashMap.get state.dag (leaderRound + 1) with
      | none => rfl
      | some authorities =>
          simp only [Option.map_some, Option.bind_eq_bind, Option.bind_some, support_content,
            orderLeaders_content]
          split_ifs
          · rfl
          · cases self.orderLeaders entry.2 state with
            | none => rfl
            | some leaders =>
                simp only [Option.map_some, Option.bind_some]
                rw [← List.map_reverse, flattenAll_content]

/-- **A step reads neither votes nor signatures.** -/
theorem step_content (state : State) (certificate : Certificate) :
    self.step state.content certificate.content =
      (self.step state certificate).map resultContent := by
  have inserted : state.content.dag.insert certificate.content =
      (state.dag.insert certificate).content := Dag.insert_content _ _
  have sameRound : state.content.lastCommittedRound = state.lastCommittedRound := rfl
  unfold step
  simp only [inserted, sameRound, Certificate.content_round]
  split_ifs
  · rfl
  · rfl
  · rfl
  · exact self.commit_content { state with dag := state.dag.insert certificate } _
  · rfl

theorem runFrom_content (state : State) (delivered : List Certificate) :
    self.runFrom state.content (delivered.map Certificate.content) =
      (self.runFrom state delivered).map resultContent := by
  induction delivered generalizing state with
  | nil => rfl
  | cons certificate delivered ih =>
      rw [List.map_cons, runFrom, runFrom, step_content]
      cases self.step state certificate with
      | none => rfl
      | some result =>
          obtain ⟨next, subDags⟩ := result
          simp only [Option.map_some, resultContent, Option.bind_eq_bind, Option.bind_some, ih]
          cases self.runFrom next delivered with
          | none => rfl
          | some more => simp [resultContent]

/-- **A run reads neither votes nor signatures.** On the certificates without them it returns what it
returns on the certificates, without them. -/
theorem run_content (delivered : List Certificate) :
    self.run (delivered.map Certificate.content) = (self.run delivered).map resultContent := by
  unfold run
  rw [← State.new_content, runFrom_content, State.new_content]

/-- **Two primaries commit alike whatever votes they have seen.** On lists of certificates that agree but for
the votes and the signatures of the headers, the consensus panics on both or on none, and ends in states and
with committed certificates that agree but for these. -/
theorem commits_alike {delivered delivered' : List Certificate}
    (same : delivered.map Certificate.content = delivered'.map Certificate.content) :
    (self.run delivered).map resultContent = (self.run delivered').map resultContent := by
  rw [← run_content, same, run_content]

omit [Primitives] in
theorem outputs_content (subDags : List SubDag) :
    outputs (subDags.map SubDag.content) = (outputs subDags).map Certificate.content := by
  unfold outputs
  rw [List.flatMap_map, List.map_flatMap]
  refine List.flatMap_congr fun subDag _ => ?_
  unfold SubDag.certificates SubDag.content
  rw [List.map_map, List.map_map]
  rfl

omit [Primitives] in
theorem leaders_content (subDags : List SubDag) :
    leaders (subDags.map SubDag.content) = (leaders subDags).map Certificate.content := by
  unfold leaders
  rw [List.map_map, List.map_map]
  rfl

end Runs

section Spine

local instance contentPrimitives : Primitives := executable fun _ _ => true

/-- The certificates of the spine with a vote of the fourth authority. -/
def votedSpine : List Certificate :=
  spineList.map fun c => { c with votes := [(⟨3⟩, nameSignature ⟨3⟩ c.digest)] }

theorem commits_alike_spine :
    (heavyNode.run spineList).map resultContent = (heavyNode.run votedSpine).map resultContent := by
  refine heavyNode.commits_alike ?_
  rw [votedSpine, List.map_map]
  rfl

end Spine

end Consensus

end Tusk
