import Tusk.Consensus.Run
import Tusk.Primary.MissingPayload
import Tusk.Primary.WaitingHeaders

/-!
# The garbage collection windows

Three components forget old rounds, each by a cutoff of its own that is computed from the consensus
round and the depth. The `Core` and the consensus keep the round at the cutoff, and the `HeaderWaiter`
drops it. Besides, the `Core` moves its cutoff only after it has processed a message, so the first header
after an advance of the consensus is checked against the old one. So a header that the `Core` has accepted
and suspended is cancelled while the consensus round stands still if and only if its round is not above
the cutoff and the consensus has left the first rounds. Of the rounds that the `Core` and the consensus
both keep, the `HeaderWaiter` drops the one at the cutoff (`windows_agree_iff`, `cancelled_headers`).

What a component keeps of a round is stated for its own code: the checks and the maps of the `Core`,
the dag and the sequence of the consensus, the pending headers and the requests of the `HeaderWaiter`.
-/

set_option autoImplicit false

namespace Tusk

open Lib

/-! ## What each component keeps -/

/-- The next cleanup of the Core keeps a round: it takes headers and certificates of the round and
keeps its records of it. -/
structure Core.Keeps [Primitives] (node : Core) (s : Core.State) (round : ℕ) : Prop where
  headers : ∀ h : Header, h.round = round →
    node.sanitizeHeader (s.cleanup node.gcDepth) h = h.verify node.committee
  certificates : ∀ c : Certificate, c.round = round →
    node.sanitizeCertificate (s.cleanup node.gcDepth) c = c.verify node.committee
  lastVoted : HashMap.get (s.cleanup node.gcDepth).lastVoted round = HashMap.get s.lastVoted round
  processing :
    HashMap.get (s.cleanup node.gcDepth).processing round = HashMap.get s.processing round
  certificatesAggregators : HashMap.get (s.cleanup node.gcDepth).certificatesAggregators round =
    HashMap.get s.certificatesAggregators round

/-- The Core keeps the rounds from its cutoff on. -/
theorem Core.keeps_of_gcRound_le [Primitives] {node : Core} {s : Core.State} {round : ℕ}
    (live : (s.cleanup node.gcDepth).gcRound ≤ round) : node.Keeps s round := by
  have maps : node.gcDepth < s.consensusRound → s.consensusRound - node.gcDepth ≤ round := by
    intro late
    simpa [Core.State.cleanup, late] using live
  refine ⟨?_, ?_, ?_, ?_, ?_⟩
  · rintro h rfl
    simp only [sanitizeHeader, ensure, if_pos live]
    rfl
  · rintro c rfl
    simp only [sanitizeCertificate, ensure, if_pos live]
    rfl
  all_goals
    unfold State.cleanup
    dsimp only
    split_ifs with late
    · exact (HashMap.get_retainKeys _ _ _).trans (if_pos (maps late))
    · rfl

/-- At a last committed round the consensus keeps another round: a commit leaves its certificates in
the dag unless their authors have committed more, and they stay in the sequence of a leader. -/
structure Consensus.Keeps (consensus : Consensus) (lastCommittedRound round : ℕ) : Prop where
  update : ∀ (state : Consensus.State) (certificate : Certificate) (name : PublicKey)
    (entry : Digest × Certificate),
    (state.update certificate consensus.gcDepth).lastCommittedRound = lastCommittedRound →
    (state.update certificate consensus.gcDepth).committed name ≤ round →
    state.dag.entry round name = some entry →
    (state.update certificate consensus.gcDepth).dag.entry round name = some entry
  orderDag : ∀ (state : Consensus.State) (ordered : List Certificate),
    state.lastCommittedRound = lastCommittedRound →
    ∀ x ∈ ordered, x.round = round → x ∈ consensus.arrange state ordered

/-- The consensus keeps the rounds within the depth, of which there is a header. -/
theorem Consensus.keeps_iff {consensus : Consensus} {lastCommittedRound : ℕ} (h : Header) :
    consensus.Keeps lastCommittedRound h.round ↔
      lastCommittedRound ≤ horizon consensus.gcDepth h.round := by
  constructor
  · intro keeps
    have found := keeps.orderDag ⟨lastCommittedRound, ∅, ∅⟩ [⟨h, []⟩] rfl ⟨h, []⟩
      List.mem_cons_self rfl
    rw [arrange, List.mem_insertionSort, List.mem_filter, decide_eq_true_eq] at found
    exact found.2
  · intro within
    refine ⟨?_, ?_⟩
    · rintro state certificate name entry rfl behind found
      exact State.entry_update.mpr ⟨found, behind, within⟩
    · rintro state ordered rfl x member same
      rw [arrange, List.mem_insertionSort, List.mem_filter, decide_eq_true_eq, same]
      exact ⟨member, within⟩

/-- The cleanup of the HeaderWaiter keeps the pending headers of a round and the requests made for
them. -/
structure HeaderWaiter.Keeps (waiter : HeaderWaiter) (consensusRound round : ℕ) : Prop where
  pending : ∀ (s : State) (id : Digest) (number : ℕ),
    HashMap.get s.pending id = some (round, number) →
    HashMap.get (waiter.cleanup s consensusRound).pending id = some (round, number)
  batchRequests : ∀ (s : State) (digest : Digest),
    HashMap.get s.batchRequests digest = some round →
    HashMap.get (waiter.cleanup s consensusRound).batchRequests digest = some round
  parentRequests : ∀ (s : State) (digest : Digest) (time : ℕ),
    HashMap.get s.parentRequests digest = some (round, time) →
    HashMap.get (waiter.cleanup s consensusRound).parentRequests digest = some (round, time)

/-- The HeaderWaiter keeps the rounds that it does not collect. -/
theorem HeaderWaiter.keeps_iff {waiter : HeaderWaiter} {consensusRound round : ℕ} :
    waiter.Keeps consensusRound round ↔ ¬ waiter.Collects consensusRound round := by
  constructor
  · rintro keeps collects
    let s : State := { pending := HashMap.insert ∅ ⟨0⟩ (round, 0) }
    have kept := keeps.pending s ⟨0⟩ 0 (HashMap.get_insert_self _ _ _)
    exact (waiter.get_pending_cleanup.mp kept).2 collects
  · intro outside
    exact ⟨fun s id number found => waiter.get_pending_cleanup.mpr ⟨found, outside⟩,
      fun s digest found => waiter.get_batchRequests_cleanup.mpr ⟨found, outside⟩,
      fun s digest time found => waiter.get_parentRequests_cleanup.mpr ⟨found, outside⟩⟩

namespace Primary

open HeaderWaiter (Holding)

variable (primary : Primary)

/-! ## When a suspended header is cancelled -/

section Drops

/-- The round of a header is not above the cutoff of the consensus round. -/
def PastCutoff (s : State) (h : Header) : Prop :=
  primary.gcDepth < s.core.consensusRound ∧ h.round + primary.gcDepth ≤ s.core.consensusRound

/-- The round of a header is at the cutoff of the consensus round. -/
def AtCutoff (s : State) (h : Header) : Prop :=
  primary.gcDepth < s.core.consensusRound ∧ h.round + primary.gcDepth = s.core.consensusRound

instance (s : State) (h : Header) : Decidable (primary.PastCutoff s h) :=
  inferInstanceAs (Decidable (_ ∧ _))

instance (s : State) (h : Header) : Decidable (primary.AtCutoff s h) :=
  inferInstanceAs (Decidable (_ ∧ _))

variable [Primitives]

/-- The HeaderWaiter has a header: it is pending, or is of the next command and its author is known. -/
structure InHand (s : State) (h : Header) : Prop where
  running : s.waiter.panicked = false
  held : (∃ w, Holding s.waiter h.id w ∧ w.deliver = h) ∨
    ∃ message now, s.core.txHeaderWaiter[s.taken]? = some message ∧ message.deliver = h ∧
      s.waiter.waits h = false ∧
      (primary.headerWaiter.synchronize s.waiter now message).panicked = false

/-- The cleanup after an event cancels the waiter of a header. -/
def Drops (s : State) (event : Event) (h : Header) : Prop :=
  ∃ e t w, s.waiterEvent event = some e ∧ primary.headerWaiter.handle s.waiter e = some t ∧
    Holding t h.id w ∧ w.deliver = h ∧
    HashMap.get (primary.advance s event).waiter.pending h.id = none

/-- As long as the consensus round does not advance, the waiter of a header is not cancelled. -/
def NeverDrops (s : State) (h : Header) : Prop :=
  ∀ (events : List Event) (event : Event),
    (∀ round, Event.core (.consensus round) ∈ events → round = s.core.consensusRound) →
      ¬ primary.Drops (events.foldl primary.advance s) event h

variable {primary} {s : State} {event : Event} {h : Header}

theorem waiter_advance_some {e : HeaderWaiter.Event} (arrives : s.waiterEvent event = some e) :
    (primary.advance s event).waiter =
      primary.headerWaiter.advance s.waiter s.core.consensusRound e := by
  rw [waiter_advance, arrives]

/-- Only what is collected is cancelled. -/
theorem Drops.collects (drops : primary.Drops s event h) :
    primary.headerWaiter.Collects s.core.consensusRound h.round := by
  obtain ⟨e, t, w, arrives, handled, holding, rfl, gone⟩ := drops
  rw [waiter_advance_some arrives, HeaderWaiter.advance_eq, handled] at gone
  dsimp only at gone
  by_contra outside
  split_ifs at gone
  · rw [holding.pending] at gone
    cases gone
  · rw [primary.headerWaiter.get_pending_cleanup.mpr ⟨holding.pending, outside⟩] at gone
    cases gone

/-- What is collected is cancelled after an event that the HeaderWaiter survives. -/
theorem drops_of_holding {e : HeaderWaiter.Event} {t : HeaderWaiter.State} {w : HeaderWaiter.Waiter}
    (arrives : s.waiterEvent event = some e)
    (handled : primary.headerWaiter.handle s.waiter e = some t) (running : t.panicked = false)
    (holding : Holding t h.id w) (ours : w.deliver = h)
    (collects : primary.headerWaiter.Collects s.core.consensusRound h.round) :
    primary.Drops s event h := by
  refine ⟨e, t, w, arrives, handled, holding, ours, ?_⟩
  rw [waiter_advance_some arrives, HeaderWaiter.advance_eq, handled]
  dsimp only
  rw [running, if_neg Bool.false_ne_true]
  refine Option.eq_none_iff_forall_ne_some.mpr fun entry found => ?_
  obtain ⟨found, kept⟩ := primary.headerWaiter.get_pending_cleanup.mp found
  rw [holding.pending] at found
  cases found
  exact kept (ours ▸ collects)

/-- A header in hand is cancelled by the next event, if it is collected. -/
theorem InHand.drops (inHand : primary.InHand s h)
    (collects : primary.headerWaiter.Collects s.core.consensusRound h.round) :
    ∃ event, primary.Drops s event h := by
  obtain ⟨running, ⟨w, holding, ours⟩ | ⟨message, now, next, rfl, waits, survives⟩⟩ := inHand
  · have handled : primary.headerWaiter.handle s.waiter (.timer 0 []) =
        some (primary.headerWaiter.retry s.waiter 0 []) := by
      simp [HeaderWaiter.handle, running]
    exact ⟨.timer 0 [], drops_of_holding rfl handled running
      ⟨holding.waiting, holding.deliver, holding.pending⟩ ours collects⟩
  · have handled : primary.headerWaiter.handle s.waiter (.synchronizer message now) =
        some (primary.headerWaiter.synchronize s.waiter now message) := by
      simp [HeaderWaiter.handle, running, waits]
    exact ⟨.suspend now, drops_of_holding (by simp [State.waiterEvent, next]) handled survives
      (HeaderWaiter.holding_synchronize s.waiter now message) rfl collects⟩

/-- A step changes the consensus round only when the consensus does. -/
theorem consensusRound_advance (s : State) (event : Event) :
    (∃ round, event = .core (.consensus round) ∧
        (primary.advance s event).core.consensusRound = round) ∨
      (primary.advance s event).core.consensusRound = s.core.consensusRound := by
  rw [core_advance]
  cases event with
  | core event =>
      cases event with
      | consensus round => exact .inl ⟨round, rfl, rfl⟩
      | batch => exact .inr rfl
      | core input =>
          refine .inr ?_
          refine Core.advance_kept (fun t => t.consensusRound = s.core.consensusRound) rfl ?_
            (fun t t' acts same => acts.rounds.2.trans same) ?_
          · cases input <;> rfl
          · rintro t _ ⟨⟩ same
            exact same
  | _ => exact .inr rfl

/-- Without an advance of the consensus its round stays. -/
theorem consensusRound_foldl {events : List Event}
    (steady : ∀ round, Event.core (.consensus round) ∈ events → round = s.core.consensusRound) :
    (events.foldl primary.advance s).core.consensusRound = s.core.consensusRound := by
  induction events using List.reverseRecOn with
  | nil => rfl
  | append_singleton events event ih =>
      rw [List.foldl_append, List.foldl_cons, List.foldl_nil]
      have before := ih fun round member => steady round (List.mem_append_left _ member)
      rcases primary.consensusRound_advance (events.foldl primary.advance s) event with
        ⟨round, rfl, after⟩ | after
      · rw [after]
        exact steady round (List.mem_append_right _ List.mem_cons_self)
      · exact after.trans before

omit [Primitives] in
/-- The HeaderWaiter collects what is not above the cutoff. -/
theorem collects_iff :
    primary.headerWaiter.Collects s.core.consensusRound h.round ↔ primary.PastCutoff s h := by
  show primary.gcDepth < s.core.consensusRound ∧
    h.round ≤ s.core.consensusRound - primary.gcDepth ↔ primary.gcDepth < s.core.consensusRound ∧
      h.round + primary.gcDepth ≤ s.core.consensusRound
  omega

omit [Primitives] in
theorem AtCutoff.pastCutoff (cutoff : primary.AtCutoff s h) : primary.PastCutoff s h :=
  ⟨cutoff.1, cutoff.2.le⟩

/-- A header above the cutoff is not cancelled. -/
theorem neverDrops (above : ¬ primary.PastCutoff s h) : primary.NeverDrops s h := by
  intro events event steady drops
  have collects := drops.collects
  rw [consensusRound_foldl steady] at collects
  exact above (collects_iff.mp collects)

end Drops

/-! ## The windows in a run -/

section Runs

variable [Primitives]

/-- The Core and the consensus keep the round of a header. -/
def Live (consensus : Consensus) (s : State) (h : Header) : Prop :=
  primary.toCore.Keeps s.core h.round ∧ consensus.Keeps s.core.consensusRound h.round

/-- At the end of a run the Core accepts a header of another primary and suspends it. -/
def Suspends (events : List Event) (h : Header) : Prop :=
  ∃ before, events = before ++ [.core (.core (.primaries (.header h)))] ∧
    primary.toCore.sanitizeHeader (primary.run before).core h = .ok () ∧
    ∃ message ∈ (primary.run events).core.txHeaderWaiter.drop
      (primary.run before).core.txHeaderWaiter.length, message.deliver = h

variable {primary} in
/-- The Core and the consensus keep the round at the cutoff. -/
theorem live_of_atCutoff {consensus : Consensus} (depth : consensus.gcDepth = primary.gcDepth)
    {s : State} (word : s.core.consensusRound < 2 ^ 64) {h : Header} (cutoff : primary.AtCutoff s h) :
    primary.Live consensus s h := by
  obtain ⟨late, same⟩ := cutoff
  refine ⟨Core.keeps_of_gcRound_le ?_, (Consensus.keeps_iff h).mpr ?_⟩
  · simp only [Core.State.cleanup, late, if_true]
    omega
  · rw [depth, Consensus.horizon_eq (same ▸ word), same]

/-- **The windows agree above the cutoff.** In every state of a run, a header is not cancelled while the
consensus round does not advance if its round is above the cutoff; and of the headers that the
HeaderWaiter has no others are spared. For every header of which the Core and the consensus keep the
round, the HeaderWaiter keeps what it has of the round if and only if the round is not at the cutoff. -/
theorem windows_agree_iff (consensus : Consensus) (depth : consensus.gcDepth = primary.gcDepth)
    (events : List Event) (word : (primary.run events).core.consensusRound < 2 ^ 64) (h : Header) :
    (¬ primary.PastCutoff (primary.run events) h → primary.NeverDrops (primary.run events) h) ∧
      (primary.InHand (primary.run events) h → primary.NeverDrops (primary.run events) h →
        ¬ primary.PastCutoff (primary.run events) h) ∧
      ((primary.Live consensus (primary.run events) h →
          primary.headerWaiter.Keeps (primary.run events).core.consensusRound h.round) ↔
        ¬ primary.AtCutoff (primary.run events) h) := by
  refine ⟨neverDrops, fun inHand kept past => ?_, fun kept cutoff => ?_, fun apart live => ?_⟩
  · obtain ⟨event, drops⟩ := inHand.drops (collects_iff.mpr past)
    exact kept [] event (fun _ member => absurd member List.not_mem_nil) drops
  · exact HeaderWaiter.keeps_iff.mp (kept (live_of_atCutoff depth word cutoff))
      (collects_iff.mpr cutoff.pastCutoff)
  · refine HeaderWaiter.keeps_iff.mpr fun collects => ?_
    obtain ⟨late, low⟩ := collects_iff.mp collects
    have within := (Consensus.keeps_iff h).mp live.2
    rw [depth] at within
    exact apart ⟨late, le_antisymm low (within.trans (Consensus.horizon_le _ _))⟩

end Runs

/-! ## A header at the cutoff -/

section FourAuthorities

local instance windowSign : Primitives := executable fun _ _ => true

/-- Headers of the second authority without their parent. -/
def withoutParent : Header :=
  .new ⟨2⟩ 2 ∅ (.ofList [⟨9⟩]) (nameSignature ⟨2⟩) Header.round_two_lt

def laterWithoutParent : Header :=
  .new ⟨2⟩ 3 ∅ (.ofList [⟨9⟩]) (nameSignature ⟨2⟩) Header.round_three_lt

/-- The consensus of the first primary. -/
def firstConsensus : Consensus := ⟨firstPrimary.committee, 50, fun _ => true⟩

/-- The Core takes a header. -/
def taking (h : Header) : Event := .core (.core (.primaries (.header h)))

/-- The consensus advances, and the Core cleans up after a message that it refuses. -/
def advanced : List Event :=
  [.core (.consensus 52),
    .core (.core (.primaries (.vote (firstPrimary.toCore.voteFor withoutParent))))]

/-- Then it takes the header whose round is at the cutoff. -/
def suspended : List Event := advanced ++ [taking withoutParent]

/-- It takes the header above the cutoff, and the HeaderWaiter awaits the parent. -/
def suspendedAbove : List Event := advanced ++ [taking laterWithoutParent, .suspend 0]

/-- The consensus advances, and the Core takes a header before it has cleaned up. -/
def suspendedBefore : List Event := [.core (.consensus 60), taking withoutParent]

/-- The first header that the Core suspends is in hand, when the HeaderWaiter has not taken it yet. -/
theorem inHand_of_first {events : List Event} {h : Header}
    (running : (firstPrimary.run events).waiter.panicked = false)
    (free : (firstPrimary.run events).waiter.waits h = false)
    (next : ∃ message ∈ (firstPrimary.run events).core.txHeaderWaiter[(firstPrimary.run events).taken]?,
      message.deliver = h ∧ (firstPrimary.headerWaiter.synchronize (firstPrimary.run events).waiter 0
        message).panicked = false) : firstPrimary.InHand (firstPrimary.run events) h := by
  obtain ⟨message, here, ours, survives⟩ := next
  exact ⟨running, .inr ⟨message, 0, here, ours, free, survives⟩⟩

/-- A header above the cutoff stays pending. -/
theorem windows_agree_iff_above :
    HashMap.get (firstPrimary.run suspendedAbove).waiter.pending laterWithoutParent.id = some (3, 0) ∧
      firstPrimary.NeverDrops (firstPrimary.run suspendedAbove) laterWithoutParent ∧
      (firstPrimary.Live firstConsensus (firstPrimary.run suspendedAbove) laterWithoutParent →
        firstPrimary.headerWaiter.Keeps (firstPrimary.run suspendedAbove).core.consensusRound
          laterWithoutParent.round) := by
  obtain ⟨spared, -, kept⟩ := firstPrimary.windows_agree_iff firstConsensus rfl suspendedAbove
    (by decide +kernel) laterWithoutParent
  have apart : ¬ firstPrimary.AtCutoff (firstPrimary.run suspendedAbove) laterWithoutParent := by
    decide +kernel
  exact ⟨by decide +kernel, spared (by decide +kernel), kept.mpr apart⟩

/-- **Headers that the Core has accepted and suspended are cancelled.** One of round 2 is, when the
consensus is at round 60 and the Core has not cleaned up since. And at the cutoff the HeaderWaiter does not
keep what the Core and the consensus keep. -/
theorem cancelled_headers :
    (¬ ∀ (primary : Primary) (events : List Event) (h : Header),
      Throughout primary.toCore.advance primary.toCore.Admissible {} (events.filterMap Event.ofCore) →
      primary.Suspends events h → primary.NeverDrops (primary.run events) h) ∧
    ¬ ∀ (primary : Primary) (consensus : Consensus) (events : List Event) (h : Header),
      consensus.gcDepth = primary.gcDepth →
      Throughout primary.toCore.advance primary.toCore.Admissible {} (events.filterMap Event.ofCore) →
      primary.Suspends events h → primary.Live consensus (primary.run events) h →
      primary.headerWaiter.Keeps (primary.run events).core.consensusRound h.round := by
  constructor
  · intro spared
    have suspends : firstPrimary.Suspends suspendedBefore withoutParent :=
      ⟨[.core (.consensus 60)], rfl, by decide +kernel, by decide +kernel⟩
    have inHand : firstPrimary.InHand (firstPrimary.run suspendedBefore) withoutParent :=
      inHand_of_first (by decide +kernel) (by decide +kernel) (by decide +kernel)
    have past : firstPrimary.PastCutoff (firstPrimary.run suspendedBefore) withoutParent := by
      decide +kernel
    obtain ⟨event, drops⟩ := inHand.drops (collects_iff.mpr past)
    have stays := spared firstPrimary suspendedBefore withoutParent (by decide +kernel) suspends [] event
      fun _ member => absurd member List.not_mem_nil
    rw [List.foldl_nil] at stays
    exact stays drops
  · intro kept
    have suspends : firstPrimary.Suspends suspended withoutParent :=
      ⟨advanced, rfl, by decide +kernel, by decide +kernel⟩
    have cutoff : firstPrimary.AtCutoff (firstPrimary.run suspended) withoutParent := by decide +kernel
    exact HeaderWaiter.keeps_iff.mp (kept firstPrimary firstConsensus suspended withoutParent rfl
      (by decide +kernel) suspends (live_of_atCutoff rfl (by decide +kernel) cutoff))
      (collects_iff.mpr cutoff.pastCutoff)

end FourAuthorities

end Primary

end Tusk
