import Tusk.Config

/-!
# The quorum waiter

A worker broadcasts its batches, and its `QuorumWaiter` waits until enough authorities have acknowledged
a batch before the batch is reported to the primary. The stake of an authority is added when its handler
resolves, whether it resolves with an acknowledgement or with an error, and the threshold is looked at
only then.

`Reports` says that a batch is reported at the moment at which the stake of the authorities that have
acknowledged it reaches the threshold, and `reports_iff` says for which resolutions this is so.
-/

set_option autoImplicit false

namespace Tusk

/-- The QuorumWaiter waits for 2f authorities to acknowledge reception of a batch. -/
structure QuorumWaiter where
  /-- The committee information. -/
  committee : Committee
  /-- The stake of this authority. -/
  stake : Stake

namespace QuorumWaiter

/-- What the loop keeps while it waits for a quorum, with the batches it has delivered. -/
structure Waiting where
  totalStake : Stake
  /-- The authorities whose handlers have not resolved. -/
  waitForQuorum : List PublicKey
  txBatch : List (List UInt8) := []
  /-- The loop has ended. -/
  ended : Bool

/-- How a cancel handler resolves: of which authority, and whether with an acknowledgement. -/
abbrev Resolution := PublicKey × Bool

variable (waiter : QuorumWaiter)

/-- The state in which a batch is taken up. The loop ends at once without handlers. -/
def start (handlers : List PublicKey) : Waiting where
  totalStake := waiter.stake
  waitForQuorum := handlers
  ended := handlers.isEmpty

/-- A handler resolves. What it resolves with is not looked at. -/
def resolve (batch : List UInt8) (s : Waiting) (resolution : Resolution) : Waiting :=
  if s.ended then
    s
  else
    let totalStake := s.totalStake + waiter.committee.stake resolution.1
    let waitForQuorum := s.waitForQuorum.erase resolution.1
    if waiter.committee.quorumThreshold ≤ totalStake then
      ⟨totalStake, waitForQuorum, s.txBatch ++ [batch], true⟩
    else
      ⟨totalStake, waitForQuorum, s.txBatch, waitForQuorum.isEmpty⟩

/-- `QuorumWaiter::run`, for one batch. -/
def wait (batch : List UInt8) (handlers : List PublicKey) (resolutions : List Resolution) : Waiting :=
  resolutions.foldl (waiter.resolve batch) (waiter.start handlers)

/-! ## Stakes -/

/-- The stake of this authority and of those that have acknowledged. -/
def ackedStake (resolutions : List Resolution) : ℕ :=
  waiter.stake.toNat +
    ((resolutions.filter Prod.snd).map fun r => (waiter.committee.stake r.1).toNat).sum

/-- The stake of this authority and of those whose handlers have resolved. -/
def resolvedStake (resolutions : List Resolution) : ℕ :=
  waiter.stake.toNat + (resolutions.map fun r => (waiter.committee.stake r.1).toNat).sum

/-- The stake that is required. -/
def required : ℕ := waiter.committee.quorumThreshold.toNat

/-- **A batch is reported when a quorum holds it**, at every moment of the resolutions: it is delivered
once, and from the moment on at which the acknowledged stake is enough. It is abandoned only when the
handlers that are left cannot make it enough. -/
structure Reports (batch : List UInt8) (handlers : List PublicKey)
    (resolutions : List Resolution) : Prop where
  exact : ∀ p, p <+: resolutions → (waiter.wait batch handlers p).txBatch =
    if waiter.required ≤ waiter.ackedStake p then [batch] else []
  abandons : ∀ p, p <+: resolutions → (waiter.wait batch handlers p).ended = true →
    (waiter.wait batch handlers p).txBatch = [] → waiter.ackedStake p +
      (((waiter.wait batch handlers p).waitForQuorum.map fun name =>
        (waiter.committee.stake name).toNat).sum) < waiter.required

/-- **Resolutions that are counted rightly.** As long as the acknowledged stake is not enough, neither is
the stake of all handlers that have resolved, and not without any. The sum that is enough does not wrap
around below the threshold. -/
structure CountsRightly (resolutions : List Resolution) : Prop where
  start : waiter.stake.toNat < waiter.required
  early : ∀ p, p <+: resolutions → waiter.ackedStake p < waiter.required →
    waiter.resolvedStake p % 2 ^ 32 < waiter.required
  complete : ∀ p r, p ++ [r] <+: resolutions → waiter.ackedStake p < waiter.required →
    waiter.required ≤ waiter.ackedStake (p ++ [r]) →
      waiter.required ≤ waiter.resolvedStake (p ++ [r]) % 2 ^ 32

variable {waiter}

theorem ackedStake_mono {p q : List Resolution} (sub : p <+: q) :
    waiter.ackedStake p ≤ waiter.ackedStake q := by
  obtain ⟨rest, rfl⟩ := sub
  rw [ackedStake, ackedStake, List.filter_append, List.map_append, List.sum_append]
  omega

/-- The stakes added up in 32 bits. -/
def total (waiter : QuorumWaiter) (resolutions : List Resolution) : Stake :=
  resolutions.foldl (fun sum r => sum + waiter.committee.stake r.1) waiter.stake

theorem total_snoc (p : List Resolution) (r : Resolution) :
    waiter.total (p ++ [r]) = waiter.total p + waiter.committee.stake r.1 := by
  rw [total, List.foldl_append]
  rfl

theorem resolvedStake_snoc (p : List Resolution) (r : Resolution) :
    waiter.resolvedStake (p ++ [r]) =
      waiter.resolvedStake p + (waiter.committee.stake r.1).toNat := by
  simp [resolvedStake, Nat.add_assoc]

theorem toNat_total (p : List Resolution) :
    (waiter.total p).toNat = waiter.resolvedStake p % 2 ^ 32 := by
  induction p using List.reverseRecOn with
  | nil =>
      have bound := waiter.stake.toNat_lt
      exact (Nat.mod_eq_of_lt bound).symm
  | append_singleton p r ih =>
      rw [total_snoc, UInt32.toNat_add, ih, resolvedStake_snoc, Nat.mod_add_mod]

/-- The sum in 32 bits is compared with the threshold. -/
theorem quorumThreshold_le_total_iff {p : List Resolution} :
    waiter.committee.quorumThreshold ≤ waiter.total p ↔
      waiter.required ≤ waiter.resolvedStake p % 2 ^ 32 := by
  rw [← toNat_total]
  exact UInt32.le_iff_toNat_le

/-! ## What the loop does -/

theorem wait_snoc (waiter : QuorumWaiter) (batch : List UInt8) (handlers : List PublicKey)
    (p : List Resolution) (r : Resolution) : waiter.wait batch handlers (p ++ [r]) =
      waiter.resolve batch (waiter.wait batch handlers p) r := by
  rw [wait, List.foldl_append]
  rfl

/-- The threshold was reached when a handler resolved. -/
def Crossed (waiter : QuorumWaiter) (p : List Resolution) : Prop :=
  ∃ q, q <+: p ∧ q ≠ [] ∧ waiter.required ≤ waiter.resolvedStake q % 2 ^ 32

theorem not_crossed_nil : ¬ waiter.Crossed [] :=
  fun ⟨_, sub, nonempty, _⟩ => nonempty (List.prefix_nil.mp sub)

theorem crossed_snoc_iff {p : List Resolution} {r : Resolution} : waiter.Crossed (p ++ [r]) ↔
    waiter.Crossed p ∨ waiter.required ≤ waiter.resolvedStake (p ++ [r]) % 2 ^ 32 := by
  constructor
  · rintro ⟨q, sub, nonempty, enough⟩
    rcases List.prefix_concat_iff.mp sub with rfl | before
    · exact .inr enough
    · exact .inl ⟨q, before, nonempty, enough⟩
  · rintro (⟨q, sub, nonempty, enough⟩ | enough)
    · exact ⟨q, sub.trans (List.prefix_append p [r]), nonempty, enough⟩
    · exact ⟨p ++ [r], List.prefix_rfl, by simp, enough⟩

/-- **What the loop has done** after some handlers have resolved. -/
theorem wait_eq (waiter : QuorumWaiter) (batch : List UInt8) {handlers : List PublicKey}
    {p : List Resolution} (distinct : (p.map Prod.fst).Nodup) (ours : p.map Prod.fst ⊆ handlers) :
    (waiter.Crossed p → (waiter.wait batch handlers p).txBatch = [batch] ∧
        (waiter.wait batch handlers p).ended = true) ∧
      (¬ waiter.Crossed p → waiter.wait batch handlers p =
        ⟨waiter.total p, handlers.diff (p.map Prod.fst), [],
          (handlers.diff (p.map Prod.fst)).isEmpty⟩) := by
  induction p using List.reverseRecOn with
  | nil => exact ⟨fun crossed => absurd crossed not_crossed_nil, fun _ => rfl⟩
  | append_singleton p r ih =>
      rw [List.map_append, List.map_singleton] at distinct ours
      obtain ⟨first, -, fresh⟩ := List.nodup_append.mp distinct
      have unresolved : r.1 ∉ p.map Prod.fst := fun before => fresh _ before _ (by simp) rfl
      obtain ⟨delivered, waiting⟩ := ih first fun _ member => ours (List.mem_append_left _ member)
      by_cases before : waiter.Crossed p
      · obtain ⟨once, ended⟩ := delivered before
        have same : waiter.wait batch handlers (p ++ [r]) = waiter.wait batch handlers p := by
          rw [wait_snoc, resolve, if_pos ended]
        rw [same]
        exact ⟨fun _ => ⟨once, ended⟩, fun none => absurd (crossed_snoc_iff.mpr (.inl before)) none⟩
      · -- the handler that resolves was among those that are left
        have left : r.1 ∈ handlers.diff (p.map Prod.fst) :=
          List.mem_diff_of_mem (ours (List.mem_append_right _ (List.mem_singleton_self _))) unresolved
        have pending : (handlers.diff (p.map Prod.fst)).isEmpty = false :=
          List.isEmpty_eq_false_iff_exists_mem.mpr ⟨_, left⟩
        have rest : (handlers.diff (p.map Prod.fst)).erase r.1 =
            handlers.diff ((p ++ [r]).map Prod.fst) := by
          rw [List.map_append, List.diff_append, List.map_singleton, List.diff_cons, List.diff_nil]
        rw [wait_snoc, waiting before, resolve, if_neg (by simp [pending])]
        dsimp only
        rw [← total_snoc, rest]
        constructor
        · intro crossed
          have enough := (crossed_snoc_iff.mp crossed).resolve_left before
          rw [if_pos (quorumThreshold_le_total_iff.mpr enough)]
          exact ⟨rfl, rfl⟩
        · intro none
          rw [if_neg fun enough =>
            none (crossed_snoc_iff.mpr (.inr (quorumThreshold_le_total_iff.mp enough)))]

/-- A batch is delivered once, when the threshold is reached at a resolution. -/
theorem txBatch_wait (waiter : QuorumWaiter) (batch : List UInt8) {handlers : List PublicKey}
    {p : List Resolution} (distinct : (p.map Prod.fst).Nodup) (ours : p.map Prod.fst ⊆ handlers) :
    ((waiter.wait batch handlers p).txBatch = [batch] ↔ waiter.Crossed p) ∧
      ((waiter.wait batch handlers p).txBatch = [] ↔ ¬ waiter.Crossed p) := by
  obtain ⟨delivered, waiting⟩ := wait_eq waiter batch distinct ours
  by_cases crossed : waiter.Crossed p
  · simp [delivered crossed, crossed]
  · simp [waiting crossed, crossed]

/-! ## When batches are reported -/

theorem CountsRightly.of_prefix {p q : List Resolution} (counts : waiter.CountsRightly q)
    (sub : p <+: q) : waiter.CountsRightly p :=
  ⟨counts.start, fun q inside => counts.early q (inside.trans sub),
    fun q r inside => counts.complete q r (inside.trans sub)⟩

/-- The threshold is reached at a resolution exactly when the acknowledged stake is enough. -/
theorem CountsRightly.crossed_iff {p : List Resolution} (counts : waiter.CountsRightly p) :
    waiter.Crossed p ↔ waiter.required ≤ waiter.ackedStake p := by
  constructor
  · rintro ⟨q, sub, -, enough⟩
    refine le_trans (not_lt.mp fun few => ?_) (ackedStake_mono sub)
    exact absurd enough (not_le.mpr (counts.early q sub few))
  · induction p using List.reverseRecOn with
    | nil => exact fun enough => absurd enough (not_le.mpr counts.start)
    | append_singleton p r ih =>
        intro enough
        rw [crossed_snoc_iff]
        rcases Nat.lt_or_ge (waiter.ackedStake p) waiter.required with few | before
        · exact .inr (counts.complete p r List.prefix_rfl few enough)
        · exact .inl (ih (counts.of_prefix (List.prefix_append p [r])) before)

section Reporting

variable {batch : List UInt8} {handlers : List PublicKey} {resolutions p : List Resolution}

/-- The batch is delivered after the first resolutions exactly when they reach the threshold. -/
theorem delivered_iff (distinct : (resolutions.map Prod.fst).Nodup)
    (ours : resolutions.map Prod.fst ⊆ handlers) (sub : p <+: resolutions) :
    ((waiter.wait batch handlers p).txBatch = [batch] ↔ waiter.Crossed p) ∧
      ((waiter.wait batch handlers p).txBatch = [] ↔ ¬ waiter.Crossed p) :=
  txBatch_wait waiter batch (distinct.sublist (sub.sublist.map _))
    fun _ member => ours ((sub.sublist.map _).subset member)

theorem Reports.crossed_iff (reports : waiter.Reports batch handlers resolutions)
    (distinct : (resolutions.map Prod.fst).Nodup) (ours : resolutions.map Prod.fst ⊆ handlers)
    (sub : p <+: resolutions) : waiter.Crossed p ↔ waiter.required ≤ waiter.ackedStake p := by
  have exact := reports.exact p sub
  obtain ⟨delivers, waits⟩ := @delivered_iff waiter batch _ _ _ distinct ours sub
  by_cases enough : waiter.required ≤ waiter.ackedStake p
  · rw [if_pos enough] at exact
    exact iff_of_true (delivers.mp exact) enough
  · rw [if_neg enough] at exact
    exact iff_of_false (waits.mp exact) enough

/-- Where batches are reported as they should be, the resolutions are counted rightly. -/
theorem Reports.countsRightly (reports : waiter.Reports batch handlers resolutions)
    (distinct : (resolutions.map Prod.fst).Nodup) (ours : resolutions.map Prod.fst ⊆ handlers) :
    waiter.CountsRightly resolutions := by
  have own : waiter.ackedStake [] = waiter.stake.toNat := rfl
  have start : waiter.stake.toNat < waiter.required := by
    rw [← own]
    exact not_le.mp fun enough =>
      not_crossed_nil ((reports.crossed_iff distinct ours List.nil_prefix).mpr enough)
  refine ⟨start, fun p sub few => ?_, fun p r sub few enough => ?_⟩
  · by_cases nonempty : p = []
    · subst nonempty
      exact lt_of_le_of_lt (Nat.mod_le _ _) start
    · refine not_le.mp fun reached => ?_
      have crossed : waiter.Crossed p := ⟨p, List.prefix_rfl, nonempty, reached⟩
      exact absurd ((reports.crossed_iff distinct ours sub).mp crossed) (not_le.mpr few)
  · have before : ¬ waiter.Crossed p := fun crossed =>
      absurd ((reports.crossed_iff distinct ours ((List.prefix_append p [r]).trans sub)).mp crossed)
        (not_le.mpr few)
    exact (crossed_snoc_iff.mp ((reports.crossed_iff distinct ours sub).mpr enough)).resolve_left
      before

/-- Where the resolutions are counted rightly, batches are reported as they should be. -/
theorem CountsRightly.reports (counts : waiter.CountsRightly resolutions)
    (distinct : (resolutions.map Prod.fst).Nodup) (ours : resolutions.map Prod.fst ⊆ handlers) :
    waiter.Reports batch handlers resolutions := by
  refine ⟨fun p sub => ?_, fun p sub ended none => ?_⟩
  · have crossed_iff := (counts.of_prefix sub).crossed_iff
    obtain ⟨delivers, waits⟩ := @delivered_iff waiter batch _ _ _ distinct ours sub
    split
    · next enough => exact delivers.mpr (crossed_iff.mpr enough)
    · next few => exact waits.mpr fun crossed => few (crossed_iff.mp crossed)
  · -- the loop has ended without a delivery, so no handler is left
    have uncrossed := (delivered_iff distinct ours sub).2.mp none
    have few : waiter.ackedStake p < waiter.required :=
      not_le.mp fun enough => uncrossed ((counts.of_prefix sub).crossed_iff.mpr enough)
    have stopped := (wait_eq waiter batch (distinct.sublist (sub.sublist.map _))
      fun _ member => ours ((sub.sublist.map _).subset member)).2 uncrossed
    rw [stopped] at ended ⊢
    rw [List.isEmpty_iff.mp ended]
    exact few

end Reporting

/-- **When a batch is reported.** For handlers of distinct authorities, a batch is reported at the moment
at which a quorum has acknowledged it if and only if the resolutions are counted rightly. -/
theorem reports_iff (waiter : QuorumWaiter) (batch : List UInt8) {handlers : List PublicKey}
    {resolutions : List Resolution} (distinct : (resolutions.map Prod.fst).Nodup)
    (ours : resolutions.map Prod.fst ⊆ handlers) :
    waiter.Reports batch handlers resolutions ↔ waiter.CountsRightly resolutions :=
  ⟨fun reports => reports.countsRightly distinct ours, fun counts => counts.reports distinct ours⟩

/-! ## Handlers that resolve with errors -/

/-- A worker of the first of four authorities of the same stake. -/
def firstOfFour : QuorumWaiter where
  committee := ⟨⟨[(⟨1⟩, .ofStake 1), (⟨2⟩, .ofStake 1), (⟨3⟩, .ofStake 1), (⟨4⟩, .ofStake 1)],
    by decide⟩⟩
  stake := 1

theorem reports_iff_acknowledged :
    firstOfFour.Reports [] [⟨2⟩, ⟨3⟩, ⟨4⟩] [(⟨3⟩, true), (⟨2⟩, true)] ↔
      firstOfFour.CountsRightly [(⟨3⟩, true), (⟨2⟩, true)] :=
  reports_iff firstOfFour [] (by decide) (by decide)

/-- **A batch that nobody has acknowledged may be reported.** -/
theorem errors_counted : ¬ ∀ (waiter : QuorumWaiter) (batch : List UInt8)
    (handlers : List PublicKey) (resolutions : List Resolution),
    (resolutions.map Prod.fst).Nodup → resolutions.map Prod.fst ⊆ handlers →
      waiter.Reports batch handlers resolutions := by
  intro reports
  have exact := (reports firstOfFour [] [⟨2⟩, ⟨3⟩, ⟨4⟩] [(⟨2⟩, false), (⟨3⟩, false)]
    (by decide) (by decide)).exact [(⟨2⟩, false), (⟨3⟩, false)] List.prefix_rfl
  exact absurd exact (by decide +kernel)

end QuorumWaiter

end Tusk
