import Tusk.Consensus.Availability
import Tusk.Primary.NodeCleanup
import Tusk.Primary.OwnVotes

/-!
# A committee at work

Every correct authority of a committee runs a primary with all its tasks, the consensus among them, and a
worker for each id. The tasks of a primary are interleaved in any order. The other authorities do what they
like, but nobody forges the signature of a correct primary (`CommitteeRun`).

A run of the committee is a deployment (`CommitteeRun.deployment`): what a deployment assumes of the Proposer
and of the workers, the other tasks keep. So whatever the correct primaries have committed at the end, their
leaders agree and no consensus has panicked (`leaders_agree`), and the workers of correct authorities that
weigh as much as a valid set have stored the batches (`committed_batches_stored`).
-/

set_option autoImplicit false

namespace Tusk

open Lib CorrectPrimary

/-- A primary of a committee with all its tasks, and what happened at it. -/
structure NodeRun [Primitives] (committee : Committee) where
  node : PrimaryNode
  events : List PrimaryNode.Event
  ofCommittee : node.core.committee = committee
  admissible : Throughout node.advance PrimaryNode.Admissible node.start events

namespace NodeRun

variable [Primitives] {committee : Committee} (node : NodeRun committee)

def name : PublicKey := node.node.core.name

/-- The state of the tasks at the end. -/
def state : PrimaryNode.State := node.node.run node.events

/-- The run of its Core. -/
def core : CorrectPrimary committee where
  node := node.node.core
  events := node.node.coreRun node.events
  ofCommittee := node.ofCommittee
  member := by
    have member := node.node.member
    rwa [node.ofCommittee] at member
  admissible := PrimaryNode.admissible_core node.admissible

theorem core_state : node.core.state = node.state.core := (node.node.core_run node.events).symm

/-- The certificates that the consensus of the primary has committed, in order. -/
def committed : List Certificate := Consensus.outputs node.state.ordering.subDags

end NodeRun

/-- The correct primaries of a committee at work. The byzantine authorities are too light to be valid, and
every other one runs a primary. A signature of such a primary verifies exactly when the primary has had it
made. The runs stay within what is known to be needed: no round of a certificate is the last there is, also
with the depth added, no vote conflicts after its round was dropped, no certificate of round 0 is taken, no
two headers are resplits of each other, nobody sends a primary a header of its own that it has not made yet,
and the workers that report are known to the committee. -/
structure CommitteeRun [Primitives] (committee : Committee) (byzantine : Finset PublicKey)
    (consensus : Consensus) (nodes : Set (NodeRun committee)) : Prop where
  noWrap : committee.NoWrap
  light : committee.weights.of byzantine < committee.validityThreshold.toNat
  covers : ∀ name ∈ committee.authorities.keys, name ∉ byzantine → ∃ node ∈ nodes, node.name = name
  stake : ∀ node ∈ nodes, 0 < committee.stake node.name
  shared : ∀ node ∈ nodes, node.node.consensus = consensus
  agrees : BatchAgrees
  authentic : ∀ node ∈ nodes, ∀ digest signature,
    Primitives.verifyStrict node.name digest signature = true → node.core.HasSigned digest
  signs : ∀ node ∈ nodes, ∀ digest, node.core.HasSigned digest →
    Primitives.verifyStrict node.name digest (node.node.core.requestSignature digest) = true
  collisionFree : CollisionFree (hashedFor (known (NodeRun.core '' nodes)))
  avoids : Primitives.Avoids (hashedFor (known (NodeRun.core '' nodes))) committee.fixedDigests
  unambiguous : ∀ h ∈ known (NodeRun.core '' nodes), ∀ h' ∈ known (NodeRun.core '' nodes),
    ¬ h.Resplit h'
  unforged : ∀ node ∈ nodes,
    Throughout node.node.advance node.node.Unforged node.node.start node.events
  noConflict : ∀ node ∈ nodes, Throughout node.core.node.advance node.core.node.NoConflict {}
    node.core.events
  fromRoundOne : ∀ node ∈ nodes, Throughout node.core.node.advance node.core.node.FromRoundOne {}
    node.core.events
  noOverflow : ∀ node ∈ nodes, ∀ message ∈ node.state.core.txProposer, message.2 + 1 < 2 ^ 64
  fits : ∀ node ∈ nodes, consensus.NoOverflow node.core.state.txConsensus
  workers : ∀ node ∈ nodes, ∀ digest workerId, .worker (.ourBatch digest workerId) ∈ node.events →
    ∃ addresses, committee.worker node.name workerId = .ok addresses

namespace CommitteeRun

section Committee

variable [Primitives] {committee : Committee} {byzantine : Finset PublicKey} {consensus : Consensus}
  {nodes : Set (NodeRun committee)} {node : NodeRun committee}
  (running : CommitteeRun committee byzantine consensus nodes)
include running

omit running in
theorem heard (member : node ∈ nodes) : ∀ event ∈ node.core.events, ∀ h,
    event.header = some h → h ∈ known (NodeRun.core '' nodes) :=
  Deployment.hears (Set.mem_image_of_mem _ member)

theorem ownRounds (member : node ∈ nodes) :
    Throughout node.core.node.advance node.core.node.OwnRounds {} node.core.events :=
  PrimaryNode.own_rounds node.admissible (running.noOverflow node member)
    (running.unforged node member) running.collisionFree (heard member)

/-- **The own headers of a primary can be certified.** -/
theorem certifies (member : node ∈ nodes) :
    ∀ event ∈ node.core.events, node.core.node.Certifies event := by
  intro event happened
  unfold Core.Certifies
  split
  · next h =>
      have stake := running.stake node member
      have voted : (h, node.core.node.voteFor h) ∈ node.core.state.votesCreated := by
        have own := running.ownRounds member
        obtain ⟨run, events, rfl, admissible⟩ := node
        exact Core.own_voted_run running.collisionFree running.avoids Set.subset_union_right
          running.noWrap stake (PrimaryNode.admissible_core admissible) own
          (PrimaryNode.running_core events) (heard member) happened
      refine ⟨fun workerId listed => ?_, running.signs node member _ (.inr ⟨h, happened, rfl⟩),
        running.signs node member _ (.inl ⟨_, voted, rfl⟩)⟩
      obtain ⟨entry, inside, rfl⟩ := List.mem_map.mp listed
      have reported := PrimaryNode.header_reported happened entry inside
      have ours : node.core.node.committee = committee := node.ofCommittee
      rw [ours]
      exact running.workers node member entry.1 entry.2 reported
  · trivial

/-- **A run of the committee is a deployment.** -/
theorem deployment : Deployment committee byzantine (NodeRun.core '' nodes) where
  noWrap := running.noWrap
  light := running.light
  covers name authority correct := by
    obtain ⟨node, member, same⟩ := running.covers name authority correct
    exact ⟨node.core, Set.mem_image_of_mem _ member, same⟩
  stake := Set.forall_mem_image.mpr fun _ member => running.stake _ member
  agrees := running.agrees
  authentic := Set.forall_mem_image.mpr fun _ member => running.authentic _ member
  collisionFree := running.collisionFree
  avoids := running.avoids
  unambiguous := running.unambiguous
  noConflict := Set.forall_mem_image.mpr fun _ member => running.noConflict _ member
  fromRoundOne := Set.forall_mem_image.mpr fun _ member => running.fromRoundOne _ member
  ownRounds := Set.forall_mem_image.mpr fun _ member => running.ownRounds member
  certifies := Set.forall_mem_image.mpr fun _ member => running.certifies member

theorem ours (member : node ∈ nodes) : consensus.committee = committee := by
  rw [← running.shared node member]
  exact node.ofCommittee

/-! ## What is committed -/

/-- **The consensus of a correct primary does not panic**, and what it has done is a run on certificates that
the Core has handed over. -/
theorem ordered (member : node ∈ nodes) :
    node.state.ordering.panicked = false ∧ ∃ received, received <+: node.core.state.txConsensus ∧
      consensus.run received = some (node.state.ordering.state, node.state.ordering.subDags) := by
  have ours := running.ours member
  have inside := Set.mem_image_of_mem NodeRun.core member
  constructor
  · refine PrimaryNode.not_panicked fun received order => ?_
    rw [running.shared node member]
    have order : received <+: node.core.state.txConsensus := by
      rw [node.core_state]
      exact order
    have fits := (running.fits node member).of_subset order.subset
    obtain ⟨_, _, _, _, computed, -⟩ :=
      running.deployment.leaders_alike ours inside inside order order fits fits
    exact Option.isSome_iff_exists.mpr ⟨_, computed⟩
  · have ordered : node.node.Ordered node.state := PrimaryNode.ordered_run node.events
    obtain ⟨-, received, order, run, -⟩ := ordered
    rw [running.shared node member] at run
    exact ⟨received, node.core_state ▸ order, run⟩

/-- **The primaries work on one dag.** Whatever the byzantine authorities do, two certificates of one author
and round that correct primaries hand to their consensus have the same header, up to its signature. -/
theorem certificates_agree {other : NodeRun committee} (member : node ∈ nodes) (member' : other ∈ nodes)
    {c c' : Certificate} (handed : c ∈ node.state.core.txConsensus)
    (handed' : c' ∈ other.state.core.txConsensus) (sameOrigin : c.origin = c'.origin)
    (sameRound : c.round = c'.round) : c.content = c'.content := by
  have valid := running.deployment.valid_of_handed (Set.mem_image_of_mem _ member)
    (node.core_state ▸ handed)
  have valid' := running.deployment.valid_of_handed (Set.mem_image_of_mem _ member')
    (other.core_state ▸ handed')
  exact running.deployment.content_unique valid valid' sameOrigin sameRound

/-- **The leaders that correct primaries commit agree.** In every run of a committee, with the tasks of each
primary interleaved in any way and any behaviour of the byzantine authorities, the consensus of a correct
primary does not panic, and of any two correct primaries the leaders that one has committed are the first
ones of the other, up to the votes that certify them. -/
theorem leaders_agree {other : NodeRun committee} (member : node ∈ nodes) (member' : other ∈ nodes) :
    node.state.ordering.panicked = false ∧
      ((Consensus.leaders node.state.ordering.subDags).map Certificate.content <+:
          (Consensus.leaders other.state.ordering.subDags).map Certificate.content ∨
        (Consensus.leaders other.state.ordering.subDags).map Certificate.content <+:
          (Consensus.leaders node.state.ordering.subDags).map Certificate.content) := by
  obtain ⟨calm, received, order, run⟩ := running.ordered member
  obtain ⟨-, received', order', run'⟩ := running.ordered member'
  obtain ⟨state, subDags, state', subDags', computed, computed', agree⟩ :=
    running.deployment.leaders_alike (running.ours member) (Set.mem_image_of_mem _ member)
      (Set.mem_image_of_mem _ member') order order' ((running.fits _ member).of_subset order.subset)
      ((running.fits _ member').of_subset order'.subset)
  cases run.symm.trans computed
  cases run'.symm.trans computed'
  exact ⟨calm, agree⟩

omit running in
/-- A primary that had the batches of a header was told of them by its workers. -/
theorem reported_of_holds {h : Header} (holds : Deployment.Holds node.core h) :
    ∀ entry ∈ h.payload.entries, ∃ message, .worker message ∈ node.events ∧ message.report = entry := by
  intro entry inside
  rcases holds entry inside with told | ⟨own, proposed, listed⟩
  · exact ⟨_, PrimaryNode.batch_reported told, rfl⟩
  · exact ⟨_, PrimaryNode.header_reported proposed entry listed, rfl⟩

/-- **Committed batches are stored.** Let the workers of the correct authorities run as well, so that a
primary is only told of a batch by its own worker. Then for each certificate that a correct primary has
committed, authorities that are not byzantine and together weigh as much as a valid set have stored every
batch of its header. -/
theorem committed_batches_stored [Bincode WorkerMessage] {workers : WorkerId → Cluster}
    {runs : WorkerId → List Cluster.Event}
    (allowed : ∀ id, ∀ event ∈ runs id, (workers id).Allowed event)
    (reports : ∀ node ∈ nodes, ∀ message, .worker message ∈ node.events →
      message ∈ ((workers message.report.2).run (runs message.report.2) node.name).txPrimary)
    (member : node ∈ nodes) {c : Certificate} (committed : c ∈ node.committed) :
    ∃ holders : Finset PublicKey, committee.validityThreshold.toNat ≤ committee.weights.of holders ∧
      ∀ name ∈ holders, name ∉ byzantine ∧ ∀ entry ∈ c.header.payload.entries,
        ((workers entry.2).run (runs entry.2) name).Stores entry.1 := by
  obtain ⟨-, received, order, run⟩ := running.ordered member
  have valid := running.deployment.valid_of_committed (running.ours member)
    (Set.mem_image_of_mem _ member) order ((running.fits _ member).of_subset order.subset) run committed
  obtain ⟨heavy, holders⟩ := running.deployment.holders_of_valid valid
  refine ⟨_, heavy, fun name inside => ⟨(Finset.mem_sdiff.mp inside).2, fun entry listed => ?_⟩⟩
  obtain ⟨_, ⟨holder, among, rfl⟩, rfl, holds⟩ := holders name inside
  obtain ⟨message, told, rfl⟩ := reported_of_holds holds entry listed
  exact (((Cluster.sound_run (allowed message.report.2)).keeps holder.name).reported_stored
    (reports holder among message told)).2

end Committee

/-! ## A batch that two authorities commit -/

section TwoHosts

local instance hostBincode : Bincode WorkerMessage := Worker.executableBincode

/-- Two authorities with a worker each, of which the first alone is a quorum. -/
def twoHosts : Committee :=
  let authority (n : ℕ) (stake : Stake) : Authority :=
    { stake := stake
      primary := ⟨⟨n, 0⟩, ⟨n, 1⟩⟩
      workers := HashMap.ofList [(0, ⟨⟨n, 2⟩, ⟨n, 3⟩, ⟨n, 4⟩⟩)] }
  ⟨⟨[(⟨1⟩, authority 1 3), (⟨2⟩, authority 2 1)], by decide⟩⟩

/-- Their workers. -/
def hostWorkers : Cluster where
  committee := twoHosts
  id := 0
  batchSize := 1
  benchmark := false
  correct := {⟨1⟩, ⟨2⟩}

/-- The first worker disseminates a batch, and both store and report it. -/
def hostBatch : List Cluster.Event :=
  let sending : List Dissemination.Event :=
    [.maker (.transaction [7]), .maker .poll] ++ Dissemination.reaches ⟨2, 3⟩ ++ [.take, .resolve ⟨2⟩]
  sending.map (.sending ⟨1⟩) ++ [.processOwn ⟨1⟩, .processOthers ⟨2⟩]

/-- The primary of one of the two. -/
def hostNode (name : PublicKey) (member : name ∈ twoHosts.authorities.keys) : PrimaryNode where
  core :=
    { name := name
      committee := twoHosts
      gcDepth := 50
      requestSignature := nameSignature name }
  member := member
  headerSize := 1000
  syncRetryDelay := 0
  syncRetryNodes := 1
  faults := 0
  adversarySeed := 0
  pauseBatchesDuringSilence := false

/-- The first primary makes five headers, the first one with the batch, and commits. -/
def hostEvents : List PrimaryNode.Event :=
  [.worker (.ourBatch sealedDigest 0), .step (.ourDigests false)] ++ PrimaryNode.leadingRun

/-- The certificates that it makes. -/
def hostCertificates : List Certificate :=
  (@PrimaryNode.run (hostNode ⟨1⟩ (by decide)) (executable fun _ _ => true) hostEvents).core.txConsensus

/-- The digests that the two sign: the votes for these headers, and the first one their ids. -/
def hostSigns (name : PublicKey) (digest : Digest) : Bool :=
  decide (digest ∈ hostCertificates.map fun c => digitHash c.hashInput) ||
    decide (name = ⟨1⟩ ∧ digest ∈ hostCertificates.map fun c => c.header.id)

local instance hostSigning : Primitives := executable hostSigns

def firstHost : NodeRun twoHosts where
  node := hostNode ⟨1⟩ (by decide)
  events := hostEvents
  ofCommittee := rfl
  admissible := by decide +kernel

/-- A certificate arrives and is taken by the Core. -/
def hearing (c : Certificate) : List PrimaryNode.Event := [.primary (.certificate c), .step .primaries]

/-- The second primary hears of the batch, and receives the second certificate before the first. This
one and its header wait, and come back. Then it receives the others and commits. -/
def secondHost : NodeRun twoHosts where
  node := hostNode ⟨2⟩ (by decide)
  events := [.worker (.othersBatch sealedDigest 0), .step .othersDigests] ++
    (hostCertificates.take 2).reverse.flatMap hearing ++
      [.step (.syncHeaders 0), .step (.headerDelivered 0), .step .headerLoopback,
        .step .syncCertificates, .step (.certificateDelivered 0), .step .certificateLoopback] ++
      (hostCertificates.drop 2).flatMap hearing ++ List.replicate 5 (.step .newCertificates)
  ofCommittee := rfl
  admissible := by decide +kernel

/-- The headers that are heard of. -/
def hostHeaders : List Header :=
  hostCertificates.map Certificate.header ++ (Certificate.genesis twoHosts).map Certificate.header

theorem mem_hosts {node : NodeRun twoHosts}
    (member : node ∈ ({firstHost, secondHost} : Set (NodeRun twoHosts))) :
    node ∈ [firstHost, secondHost] := by
  simpa using member

theorem mem_hostHeaders : ∀ h ∈ known (NodeRun.core '' {firstHost, secondHost}), h ∈ hostHeaders := by
  have brought : ∀ node ∈ [firstHost, secondHost], ∀ event ∈ node.core.events,
      ∀ h ∈ event.header, h ∈ hostHeaders := by decide +kernel
  rintro h (⟨_, ⟨node, member, rfl⟩, event, happened, brings⟩ | ⟨c, genesis, rfl⟩)
  · exact brought node (mem_hosts member) event happened h brings
  · exact List.mem_append_right _ (List.mem_map_of_mem genesis)

/-- Each of the two has voted for the headers, and the first one has proposed them. -/
theorem host_signed : ∀ node ∈ [firstHost, secondHost], ∀ c ∈ hostCertificates,
    (∃ a ∈ node.core.state.votesCreated, a.2.digest = c.digest) ∧
      (node.name = ⟨1⟩ → c.header ∈ node.state.ownHeaders) := by
  decide +kernel

/-- The digests that they sign are those that may be signed. -/
theorem host_signs : ∀ node ∈ [firstHost, secondHost],
    (∀ a ∈ node.core.state.votesCreated, hostSigns node.name a.2.digest = true) ∧
      ∀ h ∈ node.state.ownHeaders, hostSigns node.name h.id = true := by
  decide +kernel

theorem told_host {node : NodeRun twoHosts}
    (member : node ∈ ({firstHost, secondHost} : Set (NodeRun twoHosts)))
    {message : WorkerPrimaryMessage} (told : .worker message ∈ node.events) :
    message ∈ (hostWorkers.run hostBatch node.name).txPrimary ∧ message.report.2 = 0 := by
  have reported : (hostWorkers.run hostBatch ⟨1⟩).txPrimary = [.ourBatch sealedDigest 0] ∧
      (hostWorkers.run hostBatch ⟨2⟩).txPrimary = [.othersBatch sealedDigest 0] := by
    decide +kernel
  rcases member with rfl | rfl
  · have only : message = .ourBatch sealedDigest 0 := by
      rcases List.mem_append.mp told with first | later
      · simpa using first
      · obtain ⟨step, -, impossible⟩ := List.mem_map.mp later
        cases impossible
    rw [only]
    exact ⟨reported.1 ▸ List.mem_singleton_self _, rfl⟩
  · have only : message = .othersBatch sealedDigest 0 := by simpa [secondHost, hearing] using told
    rw [only]
    exact ⟨reported.2 ▸ List.mem_singleton_self _, rfl⟩

/-- The two authorities are at work, and there are no byzantine ones. -/
theorem host_running :
    CommitteeRun twoHosts ∅ (hostNode ⟨1⟩ (by decide)).consensus {firstHost, secondHost} := by
  obtain ⟨collisionFree, avoids⟩ :
      CollisionFree (hashedFor (known (NodeRun.core '' {firstHost, secondHost}))) ∧
        Primitives.Avoids (hashedFor (known (NodeRun.core '' {firstHost, secondHost})))
          twoHosts.fixedDigests :=
    hashed_of_headers hostHeaders mem_hostHeaders (by decide +kernel) (by decide +kernel)
  have named : ∀ name ∈ twoHosts.authorities.keys, ∃ node ∈ [firstHost, secondHost],
      node.name = name := by decide +kernel
  have staked : ∀ node ∈ [firstHost, secondHost], 0 < twoHosts.stake node.name := by decide +kernel
  have unforged : ∀ node ∈ [firstHost, secondHost],
      Throughout node.node.advance node.node.Unforged node.node.start node.events := by
    decide +kernel
  have noConflict : ∀ node ∈ [firstHost, secondHost], Throughout node.core.node.advance
      node.core.node.NoConflict {} node.core.events := by decide +kernel
  have fromRoundOne : ∀ node ∈ [firstHost, secondHost], Throughout node.core.node.advance
      node.core.node.FromRoundOne {} node.core.events := by decide +kernel
  have fits : ∀ node ∈ [firstHost, secondHost],
      (hostNode ⟨1⟩ (by decide)).consensus.NoOverflow node.core.state.txConsensus := by decide +kernel
  have noOverflow : ∀ node ∈ [firstHost, secondHost], ∀ message ∈ node.state.core.txProposer,
      message.2 + 1 < 2 ^ 64 := by decide +kernel
  refine
    { noWrap := by decide +kernel
      light := by decide +kernel
      covers := fun name authority _ => ?_
      stake := fun node member => staked node (mem_hosts member)
      shared := ?_
      agrees := executable_batchAgrees _
      authentic := ?_
      signs := ?_
      collisionFree := collisionFree
      avoids := avoids
      unambiguous := ?_
      unforged := fun node member => unforged node (mem_hosts member)
      noConflict := fun node member => noConflict node (mem_hosts member)
      fromRoundOne := fun node member => fromRoundOne node (mem_hosts member)
      noOverflow := fun node member => noOverflow node (mem_hosts member)
      fits := fun node member => fits node (mem_hosts member)
      workers := ?_ }
  · obtain ⟨node, member, same⟩ := named name authority
    exact ⟨node, by simpa using member, same⟩
  · rintro node (rfl | rfl) <;> rfl
  · intro node member digest signature verified
    rcases Bool.or_eq_true_iff.mp (Bool.and_eq_true_iff.mp verified).2 with vote | own
    · obtain ⟨c, made, rfl⟩ := List.mem_map.mp (of_decide_eq_true vote)
      exact .inl (host_signed node (mem_hosts member) c made).1
    · obtain ⟨name, isId⟩ := of_decide_eq_true own
      obtain ⟨c, made, rfl⟩ := List.mem_map.mp isId
      have own := (host_signed node (mem_hosts member) c made).2 name
      exact .inr ⟨_, ((PrimaryNode.attuned_run node.events).mem_iff _).mpr own, rfl⟩
  · intro node member digest signed
    have signature : node.node.core.requestSignature = nameSignature node.name := by
      rcases member with rfl | rfl <;> rfl
    have allowed : hostSigns node.name digest = true := by
      obtain ⟨votes, proposals⟩ := host_signs node (mem_hosts member)
      rcases signed with ⟨a, voted, rfl⟩ | ⟨h, proposed, rfl⟩
      · exact votes a voted
      · exact proposals h (((PrimaryNode.attuned_run node.events).mem_iff h).mp proposed)
    rw [signature]
    exact Bool.and_eq_true_iff.mpr ⟨decide_eq_true rfl, allowed⟩
  · -- a resplit takes eight payload entries
    have few : ∀ h ∈ hostHeaders, h.payload.entries.length ≤ 1 := by decide +kernel
    rintro h heard h' - resplit
    obtain ⟨t, positive, count, -⟩ := resplit.counts
    have bound := few h (mem_hostHeaders h heard)
    omega
  · intro node member digest workerId told
    have known : ∀ node ∈ [firstHost, secondHost],
        twoHosts.worker node.name 0 = .ok ⟨⟨node.name.word.toNat, 2⟩, ⟨node.name.word.toNat, 3⟩,
          ⟨node.name.word.toNat, 4⟩⟩ := by decide +kernel
    obtain ⟨-, same⟩ := told_host member told
    exact ⟨_, same ▸ known node (mem_hosts member)⟩

theorem certificates_agree_hosts :
    ∃ c ∈ firstHost.state.core.txConsensus, ∃ c' ∈ secondHost.state.core.txConsensus, c.round = 2 ∧
      c.content = c'.content := by
  obtain ⟨c, handed, c', handed', origin, round, second⟩ : ∃ c ∈ firstHost.state.core.txConsensus,
      ∃ c' ∈ secondHost.state.core.txConsensus, c.origin = c'.origin ∧ c.round = c'.round ∧
        c.round = 2 := by decide +kernel
  exact ⟨c, handed, c', handed', second,
    host_running.certificates_agree (.inl rfl) (.inr rfl) handed handed' origin round⟩

theorem leaders_agree_hosts :
    secondHost.state.ordering.panicked = false ∧
      ((Consensus.leaders secondHost.state.ordering.subDags).map Certificate.content <+:
          (Consensus.leaders firstHost.state.ordering.subDags).map Certificate.content ∨
        (Consensus.leaders firstHost.state.ordering.subDags).map Certificate.content <+:
          (Consensus.leaders secondHost.state.ordering.subDags).map Certificate.content) :=
  host_running.leaders_agree (.inr rfl) (.inl rfl)

/-- The second primary has committed the certificate of the header with the batch. -/
theorem committed_batches_stored_hosts : ∃ c ∈ secondHost.committed,
    c.header.payload.entries = [(sealedDigest, 0)] ∧
    ∃ holders : Finset PublicKey, twoHosts.validityThreshold.toNat ≤ twoHosts.weights.of holders ∧
      ∀ name ∈ holders, name ∉ (∅ : Finset PublicKey) ∧ ∀ entry ∈ c.header.payload.entries,
        (hostWorkers.run hostBatch name).Stores entry.1 := by
  obtain ⟨c, committed, payload⟩ : ∃ c ∈ secondHost.committed,
      c.header.payload.entries = [(sealedDigest, 0)] := by decide +kernel
  refine ⟨c, committed, payload, ?_⟩
  refine @committed_batches_stored _ twoHosts ∅ _ _ secondHost host_running _ (fun _ => hostWorkers)
    (fun _ => hostBatch) (fun _ => ?_) ?_ (.inr rfl) c committed
  · simp [hostBatch, Dissemination.reaches, Cluster.Allowed, Dissemination.Allowed]
  · exact fun node member message told => (told_host member told).1

end TwoHosts

end CommitteeRun

end Tusk
