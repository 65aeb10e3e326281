import Tusk.Primary.Core

/-!
# What the Core does with a message

A message hands headers and certificates to the Core: those it brings, once they have passed the
checks on what comes from other primaries, and the current header with a certificate of it, when a
vote completes the certificate. `Acts` lists every change the Core makes to its state while it
processes the message, each with what the code has found when it makes it. `receive_acts` says that
processing a message, to its end or to an interruption, is a sequence of such acts.
-/

set_option autoImplicit false

namespace Tusk.Core

open Lib

variable [Primitives] (node : Core)

/-! ## Inspecting a header -/

omit [Primitives] in
/-- The batches of a header that no worker has reported. -/
def absentPayload (store : Store) (header : Header) : List (Digest × WorkerId) :=
  header.payload.entries.filter fun entry =>
    (store.read (Store.payloadKey entry.1 entry.2)).isNone

/-- The changes made while a header is checked. -/
inductive Inspects (header : Header) : State → State → Prop where
  | start (s : State) : Inspects header s (s.startProcessing header)
  | syncParents {s : State} {parents : List Certificate} {missing : List Digest}
      (read : node.readParents s.store header.parents.toList = .ok (parents, missing))
      (absent : missing ≠ []) : Inspects header s (s.syncHeader (.syncParents missing header))
  | syncBatches {s : State} (other : header.author ≠ node.name)
      (absent : absentPayload s.store header ≠ [])
      (read : ∃ parents, node.readParents s.store header.parents.toList = .ok (parents, [])) :
      Inspects header s
        (s.syncHeader (.syncBatches (HashMap.ofList (absentPayload s.store header)) header))

/-- What was checked of a header that is stored. -/
structure Accepts (s : State) (header : Header) : Prop where
  parents : ∃ parents, node.readParents s.store header.parents.toList = .ok (parents, []) ∧
    parents ≠ [] ∧ node.checkParents header parents = .ok ()
  payload : header.author = node.name ∨ ∀ entry ∈ header.payload.entries,
    (s.store.read (Store.payloadKey entry.1 entry.2)).isSome = true

omit [Primitives] in
/-- The rest of a computation knows that a check has succeeded. -/
theorem bind_check {α β : Type} {R : State → State → Prop} {pre : State → Prop}
    {result : Except DagError α} {next : α → CoreM β} {post : β → State → Prop}
    (rest : ∀ a, result = .ok a → Command.Follows R pre (next a) post) :
    Command.Follows R pre (check result >>= next) post :=
  .bind_ofExcept fun a found => rest a (mapError_eq_ok_iff.mp found)

theorem getParents_follows (header : Header) :
    Command.Follows (node.Inspects header) (fun _ => True) (node.getParents header)
      fun parents s => parents ≠ [] →
        node.readParents s.store header.parents.toList = .ok (parents, []) := by
  unfold getParents
  apply Command.Follows.bind_get
  intro s
  apply bind_check
  intro found read
  obtain ⟨parents, missing⟩ := found
  dsimp only
  split
  · next none =>
      obtain rfl := List.isEmpty_iff.mp none
      exact .pure fun s' same _ => same.1 ▸ read
  · next some =>
      have absent : missing ≠ [] := fun none => some (List.isEmpty_iff.mpr none)
      apply Command.Follows.bind_modify (fun _ => True)
        (fun s' same => .syncParents (same.1 ▸ read) absent) fun _ _ => trivial
      exact .pure fun _ _ nonempty => absurd rfl nonempty

/-- What holds of the store is not changed by looking for the payload, which comes after the
parents. -/
theorem missingPayload_follows (header : Header) (holds : Store → Prop)
    (reads : ∀ store, holds store →
      ∃ parents, node.readParents store header.parents.toList = .ok (parents, [])) :
    Command.Follows (node.Inspects header) (fun s => holds s.store) (node.missingPayload header)
      fun missing s => holds s.store ∧ (missing = false → header.author = node.name ∨
        ∀ entry ∈ header.payload.entries,
          (s.store.read (Store.payloadKey entry.1 entry.2)).isSome = true) := by
  unfold missingPayload
  split
  · next own => exact .pure fun _ before => ⟨before, fun _ => .inl own⟩
  · next other =>
      apply Command.Follows.bind_get
      intro s
      dsimp only
      split
      · next none =>
          apply Command.Follows.pure
          intro s' before
          obtain ⟨rfl, before⟩ := before
          refine ⟨before, fun _ => .inr fun entry member => ?_⟩
          have present := List.filter_eq_nil_iff.mp (List.isEmpty_iff.mp none) entry member
          simpa [Option.isSome_iff_ne_none] using present
      · next some =>
          have absent : absentPayload s.store header ≠ [] := fun none =>
            some (List.isEmpty_iff.mpr none)
          apply Command.Follows.bind_modify (fun s' => holds s'.store)
          · rintro s' ⟨rfl, before⟩
            exact .syncBatches other absent (reads _ before)
          · exact fun _ before => before.2
          · exact .pure fun _ before => ⟨before, fun impossible => nomatch impossible⟩

/-- **A header that is not suspended was accepted.** -/
theorem checkHeader_follows (header : Header) :
    Command.Follows (node.Inspects header) (fun _ => True) (node.checkHeader header)
      fun ready s => ready = true → node.Accepts s header := by
  unfold checkHeader
  apply Command.Follows.bind_modify (fun _ => True) (fun s _ => .start s) fun _ _ => trivial
  apply Command.Follows.bind (node.getParents_follows header)
  intro parents
  split
  · exact .pure fun _ _ impossible => nomatch impossible
  · next some =>
      have nonempty : parents ≠ [] := fun none => some (List.isEmpty_iff.mpr none)
      apply bind_check
      intro _ checked
      have payload := node.missingPayload_follows header
        (fun store => node.readParents store header.parents.toList = .ok (parents, []))
        fun _ read => ⟨parents, read⟩
      apply Command.Follows.bind (payload.weaken (fun s read => read nonempty) fun _ _ => id)
      intro missing
      apply Command.Follows.pure
      intro s before ready
      exact ⟨⟨parents, before.1, nonempty, checked⟩, before.2 (by simpa using ready)⟩

/-! ## What a message hands over -/

/-- The certificates a message hands over. What comes from other primaries is checked first. -/
inductive Carries (node : Core) (s : State) : Input → Certificate → Prop where
  | primaries {c : Certificate} (sane : node.sanitizeCertificate s c = .ok ()) :
      Carries node s (.primaries (.certificate c)) c
  | certificateWaiter (c : Certificate) : Carries node s (.certificateWaiter c) c

/-- The headers a message hands over. -/
inductive Hands (node : Core) (s : State) : Input → Header → Prop where
  | primaries {h : Header} (sane : node.sanitizeHeader s h = .ok ()) :
      Hands node s (.primaries (.header h)) h
  | headerWaiter (h : Header) : Hands node s (.headerWaiter h) h
  | proposer (h : Header) : Hands node s (.proposer h) h
  | embedded {input : Input} {c : Certificate} (carries : Carries node s input c) :
      Hands node s input c.header

omit [Primitives] in
/-- Whether a message may complete a certificate of the current header: a vote does, and a header
of this primary, which gets a vote of this primary. -/
def Completes (node : Core) : Input → Prop
  | .primaries (.vote _) => True
  | .primaries (.header h) => h.author = node.name
  | .primaries (.certificate c) => c.header.author = node.name
  | .primaries (.certificatesRequest _ _) => False
  | .headerWaiter h => h.author = node.name
  | .certificateWaiter c => c.header.author = node.name
  | .proposer h => h.author = node.name

instance : ∀ input, Decidable (node.Completes input)
  | .primaries (.vote _) => inferInstanceAs (Decidable True)
  | .primaries (.header h) => inferInstanceAs (Decidable (h.author = node.name))
  | .primaries (.certificate c) => inferInstanceAs (Decidable (c.header.author = node.name))
  | .primaries (.certificatesRequest _ _) => inferInstanceAs (Decidable False)
  | .headerWaiter h => inferInstanceAs (Decidable (h.author = node.name))
  | .certificateWaiter c => inferInstanceAs (Decidable (c.header.author = node.name))
  | .proposer h => inferInstanceAs (Decidable (h.author = node.name))

variable {node} in
theorem completes_of_hands {s : State} {input : Input} {h : Header}
    (hands : node.Hands s input h) (own : h.author = node.name) : node.Completes input := by
  cases hands with
  | embedded carries => cases carries <;> exact own
  | _ => exact own

/-- The checks on what comes from other primaries. -/
def Sane (s : State) : Input → Prop
  | .primaries (.header h) => node.sanitizeHeader s h = .ok ()
  | .primaries (.vote v) => node.sanitizeVote s v = .ok ()
  | .primaries (.certificate c) => node.sanitizeCertificate s c = .ok ()
  | .primaries (.certificatesRequest _ _) => False
  | _ => True

instance (s : State) : ∀ input, Decidable (node.Sane s input)
  | .primaries (.header _) => inferInstanceAs (Decidable (_ = _))
  | .primaries (.vote _) => inferInstanceAs (Decidable (_ = _))
  | .primaries (.certificate _) => inferInstanceAs (Decidable (_ = _))
  | .primaries (.certificatesRequest _ _) => inferInstanceAs (Decidable False)
  | .headerWaiter _ => inferInstanceAs (Decidable True)
  | .certificateWaiter _ => inferInstanceAs (Decidable True)
  | .proposer _ => inferInstanceAs (Decidable True)

omit [Primitives] in
/-- The state in which the processing of a message starts: a header of the `Proposer` becomes the
current one. -/
def State.opened (s : State) : Input → State
  | .proposer h => s.propose h
  | _ => s

/-- A header on which the Core may call `process_header` in a state: one that the message hands
over, or the current one when a certificate of it has been broadcast. -/
def HeaderAtHand (node : Core) (s : State) (input : Input) (t : State) (h : Header) : Prop :=
  node.Hands s input h ∨
    (node.Completes input ∧ h = (s.opened input).currentHeader ∧
      ∃ c, c.header = h ∧ (node.others, .certificate c) ∈ t.network)

/-- A certificate on which the Core may call `process_certificate` in a state: one that the message
hands over, or one of the current header that has been broadcast. -/
def CertificateAtHand (node : Core) (s : State) (input : Input) (t : State) (c : Certificate) :
    Prop :=
  node.Carries s input c ∨
    (node.Completes input ∧ c.header = (s.opened input).currentHeader ∧
      (node.others, .certificate c) ∈ t.network)

/-- A vote on which the Core may call `process_vote` in a state: the vote the message brings, once
it has passed the checks, or a vote of this primary for an accepted header of its own. -/
inductive VoteAtHand (node : Core) (s : State) (input : Input) (t : State) : Vote → Prop where
  | received {v : Vote} (brings : input = .primaries (.vote v))
      (sane : node.sanitizeVote s v = .ok ()) : VoteAtHand node s input t v
  | own {h : Header} (subject : node.HeaderAtHand s input t h) (ours : h.author = node.name)
      (accepted : ∃ u, node.Accepts u h) : VoteAtHand node s input t (node.voteFor h)

/-- The store is as it was when the message was received, or the message may complete a
certificate. -/
def Fresh (node : Core) (s : State) (input : Input) (t : State) : Prop :=
  node.Completes input ∨ t.store = s.store

/-! ## The acts -/

/-- The changes made while a message received at `s₀` is processed. -/
inductive Acts (node : Core) (s₀ : State) (input : Input) : State → State → Prop where
  | inspect {s s' : State} {h : Header} (subject : node.HeaderAtHand s₀ input s h)
      (inspects : node.Inspects h s s') : Acts node s₀ input s s'
  | store {s : State} {h : Header} (subject : node.HeaderAtHand s₀ input s h)
      (accepts : node.Accepts s h) : Acts node s₀ input s (s.storeHeader h)
  | vote {s : State} {h : Header} (subject : node.HeaderAtHand s₀ input s h)
      (accepts : node.Accepts s h) (first : h.author ∉ HashMap.bucket s.lastVoted h.round)
      (fresh : node.Fresh s₀ input s) :
      Acts node s₀ input (s.storeHeader h) ((s.storeHeader h).createVote h (node.voteFor h))
  | sendVote {s : State} {h : Header} (subject : node.HeaderAtHand s₀ input s h)
      (other : h.author ≠ node.name) (addresses : List SocketAddr) :
      Acts node s₀ input s (s.send addresses (.vote (node.voteFor h)))
  | announce {h : Header} (s : State) (brings : input = .proposer h) :
      Acts node s₀ input s (s.send node.others (.header h))
  | count {s : State} {v : Vote} {aggregator : VotesAggregator}
      (subject : node.VoteAtHand s₀ input s v)
      (appended : s.votesAggregator.append v node.committee s.currentHeader =
        .ok (aggregator, none)) :
      Acts node s₀ input s { s with votesAggregator := aggregator }
  | assemble {s : State} {v : Vote} {aggregator : VotesAggregator} {c : Certificate}
      (subject : node.VoteAtHand s₀ input s v)
      (appended : s.votesAggregator.append v node.committee s.currentHeader =
        .ok (aggregator, some c)) :
      Acts node s₀ input s
        (State.send { s with votesAggregator := aggregator } node.others (.certificate c))
  | suspend {s : State} {c : Certificate} (subject : node.CertificateAtHand s₀ input s c)
      (absent : ¬ ∀ digest ∈ c.header.parents.toList, node.HasParent s.store digest) :
      Acts node s₀ input s (s.syncCertificate c)
  | deliver {s : State} {c : Certificate} (subject : node.CertificateAtHand s₀ input s c)
      (parents : ∀ digest ∈ c.header.parents.toList, node.HasParent s.store digest) :
      Acts node s₀ input s (s.deliver node.committee c)

variable {node} {s₀ : State} {input : Input}

theorem Inspects.currentHeader {header : Header} {s s' : State}
    (inspects : node.Inspects header s s') : s'.currentHeader = s.currentHeader := by
  cases inspects <;> rfl

theorem Acts.currentHeader {s s' : State} (acts : node.Acts s₀ input s s') :
    s'.currentHeader = s.currentHeader := by
  cases acts with
  | inspect _ inspects => exact inspects.currentHeader
  | _ => rfl

/-- The rounds are left to the cleanup and the consensus. -/
theorem Acts.rounds {s s' : State} (acts : node.Acts s₀ input s s') :
    s'.gcRound = s.gcRound ∧ s'.consensusRound = s.consensusRound := by
  cases acts with
  | inspect _ inspects => cases inspects <;> exact ⟨rfl, rfl⟩
  | _ => exact ⟨rfl, rfl⟩

/-- What was sent stays so. -/
theorem Acts.network_subset {s s' : State} (acts : node.Acts s₀ input s s') :
    s.network ⊆ s'.network := by
  cases acts with
  | inspect _ inspects => cases inspects <;> exact fun _ => id
  | sendVote => exact List.subset_append_left ..
  | announce => exact List.subset_append_left ..
  | assemble => exact List.subset_append_left ..
  | _ => exact fun _ => id

section Sent

variable {s s' : State} {c : Certificate}

/-- A certificate that is broadcast was assembled. -/
theorem Acts.broadcast (acts : node.Acts s₀ input s s')
    (inside : (node.others, .certificate c) ∈ s'.network) :
    (node.others, .certificate c) ∈ s.network ∨ ∃ v aggregator, node.VoteAtHand s₀ input s v ∧
      s.votesAggregator.append v node.committee s.currentHeader = .ok (aggregator, some c) := by
  cases acts with
  | inspect _ inspects => cases inspects <;> exact .inl inside
  | sendVote =>
      refine .inl ((List.mem_append.mp inside).resolve_right fun new => ?_)
      cases List.mem_singleton.mp new
  | announce =>
      refine .inl ((List.mem_append.mp inside).resolve_right fun new => ?_)
      cases List.mem_singleton.mp new
  | @assemble _ v aggregator _ subject appended =>
      rcases List.mem_append.mp inside with old | new
      · exact .inl old
      · cases List.mem_singleton.mp new
        exact .inr ⟨v, aggregator, subject, appended⟩
  | _ => exact .inl inside

/-- A certificate that is handed over was at hand and had its parents. -/
theorem Acts.delivered (acts : node.Acts s₀ input s s') (inside : c ∈ s'.txConsensus) :
    c ∈ s.txConsensus ∨ (node.CertificateAtHand s₀ input s c ∧
      ∀ digest ∈ c.header.parents.toList, node.HasParent s.store digest) := by
  cases acts with
  | inspect _ inspects => cases inspects <;> exact .inl inside
  | deliver subject parents =>
      rcases List.mem_append.mp inside with old | new
      · exact .inl old
      · cases List.mem_singleton.mp new
        exact .inr ⟨subject, parents⟩
  | _ => exact .inl inside

/-- A header that waits was at hand, and it lacked a parent or is of another primary. -/
theorem Acts.suspended {message : WaiterMessage} (acts : node.Acts s₀ input s s')
    (inside : message ∈ s'.txHeaderWaiter) :
    message ∈ s.txHeaderWaiter ∨ (node.HeaderAtHand s₀ input s message.deliver ∧
      (message.deliver.author ≠ node.name ∨ ∃ parents missing,
        node.readParents s.store message.deliver.parents.toList = .ok (parents, missing) ∧
          missing ≠ [])) := by
  cases acts with
  | inspect subject inspects =>
      cases inspects with
      | start => exact .inl inside
      | @syncParents parents missing read absent =>
          rcases List.mem_append.mp inside with old | new
          · exact .inl old
          · obtain rfl := List.mem_singleton.mp new
            exact .inr ⟨subject, .inr ⟨parents, missing, read, absent⟩⟩
      | syncBatches other =>
          rcases List.mem_append.mp inside with old | new
          · exact .inl old
          · obtain rfl := List.mem_singleton.mp new
            exact .inr ⟨subject, .inl other⟩
  | _ => exact .inl inside

/-- A certificate that waits was at hand and lacked a parent. -/
theorem Acts.waiting (acts : node.Acts s₀ input s s') (inside : c ∈ s'.txCertificateWaiter) :
    c ∈ s.txCertificateWaiter ∨ (node.CertificateAtHand s₀ input s c ∧
      ¬ ∀ digest ∈ c.header.parents.toList, node.HasParent s.store digest) := by
  cases acts with
  | inspect _ inspects => cases inspects <;> exact .inl inside
  | suspend subject absent =>
      rcases List.mem_append.mp inside with old | new
      · exact .inl old
      · cases List.mem_singleton.mp new
        exact .inr ⟨subject, absent⟩
  | _ => exact .inl inside

end Sent

section AtHand

variable {t t' : State}

theorem HeaderAtHand.mono {h : Header} (atHand : node.HeaderAtHand s₀ input t h)
    (more : t.network ⊆ t'.network) : node.HeaderAtHand s₀ input t' h :=
  atHand.imp_right fun ⟨completes, same, c, header, made⟩ =>
    ⟨completes, same, c, header, more made⟩

theorem CertificateAtHand.mono {c : Certificate} (atHand : node.CertificateAtHand s₀ input t c)
    (more : t.network ⊆ t'.network) : node.CertificateAtHand s₀ input t' c :=
  atHand.imp_right fun ⟨completes, same, made⟩ => ⟨completes, same, more made⟩

theorem CertificateAtHand.header {c : Certificate} (atHand : node.CertificateAtHand s₀ input t c) :
    node.HeaderAtHand s₀ input t c.header := by
  rcases atHand with carries | ⟨completes, same, made⟩
  · exact .inl (.embedded carries)
  · exact .inr ⟨completes, same, c, rfl, made⟩

theorem VoteAtHand.completes {v : Vote} (atHand : node.VoteAtHand s₀ input t v) :
    node.Completes input := by
  cases atHand with
  | received brings =>
      subst brings
      trivial
  | own subject ours =>
      rcases subject with hands | current
      · exact completes_of_hands hands ours
      · exact current.1

end AtHand

section Processing

/-- The header for which votes are counted does not change. -/
abbrev Current (s₀ : State) (input : Input) (t : State) : Prop :=
  t.currentHeader = (s₀.opened input).currentHeader

/-- A vote is created for an accepted header that is stored. -/
theorem castVote_acts {processVote : Vote → CoreM Unit} {h : Header}
    (onVote : ∀ v, Command.Follows (node.Acts s₀ input)
      (fun t => Current s₀ input t ∧ node.VoteAtHand s₀ input t v) (processVote v)
      fun _ _ => True) :
    Command.Follows (node.Acts s₀ input)
      (fun s' => ∃ s, node.Accepts s h ∧ s' = s.storeHeader h ∧ Current s₀ input s ∧
        node.HeaderAtHand s₀ input s h ∧ node.Fresh s₀ input s)
      (node.castVote processVote h) fun _ _ => True := by
  unfold castVote
  apply Command.Follows.bind_get
  intro s
  split
  · exact .pure fun _ _ => trivial
  · next first =>
      dsimp only
      apply Command.Follows.bind_modify fun s' : State =>
        Current s₀ input s' ∧ node.HeaderAtHand s₀ input s' h ∧ ∃ u, node.Accepts u h
      · rintro _ ⟨rfl, before, accepts, rfl, -, subject, fresh⟩
        exact .vote subject accepts first fresh
      · rintro _ ⟨-, before, accepts, rfl, same, subject, -⟩
        exact ⟨same, subject, before, accepts⟩
      split
      · next own =>
          intro t before
          obtain ⟨same, subject, accepted⟩ := before
          exact (onVote _).interruptWith t ⟨same, .own subject own accepted⟩
      · next other =>
          apply Command.Follows.bind_ofExcept
          intro address _
          exact .modify (fun s before => .sendVote before.2.1 other _) fun _ _ => trivial

theorem processHeaderWith_acts {processVote : Vote → CoreM Unit} {h : Header}
    (onVote : ∀ v, Command.Follows (node.Acts s₀ input)
      (fun t => Current s₀ input t ∧ node.VoteAtHand s₀ input t v) (processVote v)
      fun _ _ => True) :
    Command.Follows (node.Acts s₀ input)
      (fun s => Current s₀ input s ∧ node.HeaderAtHand s₀ input s h ∧ node.Fresh s₀ input s)
      (node.processHeaderWith processVote h) fun _ _ => True := by
  have keeps : ∀ s s', node.Inspects h s s' →
      Current s₀ input s ∧ node.HeaderAtHand s₀ input s h ∧ node.Fresh s₀ input s →
      Current s₀ input s' ∧ node.HeaderAtHand s₀ input s' h ∧ node.Fresh s₀ input s' := by
    intro s s' inspects before
    cases inspects <;> exact before
  have inspects : Command.Follows (node.Acts s₀ input)
      (fun s => Current s₀ input s ∧ node.HeaderAtHand s₀ input s h ∧ node.Fresh s₀ input s)
      (node.checkHeader h) fun ready s => (ready = true → node.Accepts s h) ∧
        Current s₀ input s ∧ node.HeaderAtHand s₀ input s h ∧ node.Fresh s₀ input s := by
    -- the header stays at hand while it is inspected
    have framed := (node.checkHeader_follows h).frame_mono keeps fun s s' inspects before =>
      Acts.inspect before.2.1 inspects
    exact framed.weaken (fun _ before => ⟨trivial, before⟩) fun _ _ => id
  unfold processHeaderWith
  apply Command.Follows.bind inspects
  intro ready
  split
  · next accepted =>
      apply Command.Follows.bind_modify _
        (fun s before => .store before.2.2.1 (before.1 accepted)) _ (castVote_acts onVote)
      intro s before
      exact ⟨s, before.1 accepted, rfl, before.2⟩
  · exact .pure fun _ _ => trivial

theorem processVoteWith_acts {processCertificate : Certificate → CoreM Unit} {v : Vote}
    (onCertificate : ∀ c, Command.Follows (node.Acts s₀ input)
      (fun t => Current s₀ input t ∧ node.CertificateAtHand s₀ input t c ∧
        node.Fresh s₀ input t)
      (processCertificate c) fun _ _ => True) :
    Command.Follows (node.Acts s₀ input)
      (fun t => Current s₀ input t ∧ node.VoteAtHand s₀ input t v)
      (node.processVoteWith processCertificate v) fun _ _ => True := by
  unfold processVoteWith
  apply Command.Follows.bind_get
  intro s
  apply bind_check
  intro counted appended
  obtain ⟨aggregator, assembled⟩ := counted
  dsimp only
  cases assembled with
  | none =>
      apply Command.Follows.bind_modify (fun _ => True)
      · rintro s' ⟨rfl, -, atHand⟩
        exact .count atHand appended
      · exact fun _ _ => trivial
      · exact .pure fun _ _ => trivial
  | some c =>
      -- the new aggregator and the broadcast are one act
      rintro s' ⟨rfl, same, atHand⟩
      have header := (VotesAggregator.append_ok appended).2 c rfl
      let t : State := State.send { s with votesAggregator := aggregator } node.others
        (.certificate c)
      have act : node.Acts s₀ input s t := .assemble atHand appended
      have made : node.CertificateAtHand s₀ input t c :=
        .inr ⟨atHand.completes, header.trans same,
          List.mem_append_right _ (List.mem_singleton_self _)⟩
      have rest : Command.Follows (node.Acts s₀ input) _
          (Command.interruptWith (Interrupt.expect .validCertificate) (processCertificate c))
          fun _ _ => True := (onCertificate c).interruptWith
      exact ⟨.head act (rest t ⟨same, made, .inl atHand.completes⟩).1, fun _ _ => trivial⟩

theorem processCertificateWith_acts {processHeader : Header → CoreM Unit} {c : Certificate}
    (onHeader : Command.Follows (node.Acts s₀ input)
      (fun t => Current s₀ input t ∧ node.HeaderAtHand s₀ input t c.header ∧
        node.Fresh s₀ input t)
      (processHeader c.header) fun _ _ => True) :
    Command.Follows (node.Acts s₀ input)
      (fun t => Current s₀ input t ∧ node.CertificateAtHand s₀ input t c ∧
        node.Fresh s₀ input t)
      (node.processCertificateWith processHeader c) fun _ _ => True := by
  have embedded : Command.Follows (node.Acts s₀ input)
      (fun t => Current s₀ input t ∧ node.HeaderAtHand s₀ input t c.header ∧
        node.Fresh s₀ input t)
      (processEmbedded processHeader c) fun _ _ => True := by
    unfold processEmbedded
    apply Command.Follows.bind_get
    intro s
    split
    · exact onHeader.weaken (fun _ before => before.2) fun _ _ => id
    · exact .pure fun _ _ => trivial
  have framed := embedded.frame fun s s' acts (before : node.CertificateAtHand s₀ input s c) =>
    before.mono acts.network_subset
  have delivered : Command.Follows (node.Acts s₀ input)
      (fun s => node.CertificateAtHand s₀ input s c)
      (node.deliverCertificate c) fun delivered s => delivered = true →
        node.CertificateAtHand s₀ input s c ∧
          ∀ digest ∈ c.header.parents.toList, node.HasParent s.store digest := by
    unfold deliverCertificate
    apply Command.Follows.bind_get
    intro s
    split
    · next present =>
        apply Command.Follows.pure
        rintro s' ⟨rfl, before⟩ -
        exact ⟨before, present⟩
    · next absent =>
        apply Command.Follows.bind_modify (fun _ => True)
        · rintro s' ⟨rfl, before⟩
          exact .suspend before absent
        · exact fun _ _ => trivial
        · exact .pure fun _ _ impossible => absurd impossible Bool.false_ne_true
  unfold processCertificateWith
  apply Command.Follows.bind (framed.weaken
    (fun s before => ⟨⟨before.1, before.2.1.header, before.2.2⟩, before.2.1⟩) fun _ _ => And.right)
  intro _
  apply Command.Follows.bind delivered
  intro present
  split
  · next all =>
      refine .modify (fun s before => ?_) fun _ _ => trivial
      obtain ⟨atHand, parents⟩ := before all
      exact .deliver atHand parents
  · exact .pure fun _ _ => trivial

theorem processHeaderTo_acts (depth : ℕ) (h : Header) :
    Command.Follows (node.Acts s₀ input)
      (fun t => Current s₀ input t ∧ node.HeaderAtHand s₀ input t h ∧ node.Fresh s₀ input t)
      (node.processHeaderTo (fun _ => pure ()) depth h) fun _ _ => True := by
  induction depth generalizing h with
  | zero => exact .pure fun _ _ => trivial
  | succ depth ih =>
      exact processHeaderWith_acts fun _ => processVoteWith_acts fun c =>
        processCertificateWith_acts (ih c.header)

theorem processHeader_acts (h : Header) :
    Command.Follows (node.Acts s₀ input)
      (fun t => Current s₀ input t ∧ node.HeaderAtHand s₀ input t h ∧ node.Fresh s₀ input t)
      (node.processHeader h) fun _ _ => True :=
  processHeaderTo_acts 2 h

theorem processCertificate_acts (c : Certificate) :
    Command.Follows (node.Acts s₀ input)
      (fun t => Current s₀ input t ∧ node.CertificateAtHand s₀ input t c ∧
        node.Fresh s₀ input t)
      (node.processCertificate c) fun _ _ => True :=
  processCertificateWith_acts (processHeader_acts c.header)

theorem processVote_acts (v : Vote) :
    Command.Follows (node.Acts s₀ input)
      (fun t => Current s₀ input t ∧ node.VoteAtHand s₀ input t v) (node.processVote v)
      fun _ _ => True :=
  processVoteWith_acts processCertificate_acts

end Processing

/-! ## Messages -/

section Sanitizing

variable {s : State} {result : State → Except DagError Unit} {process : CoreM Unit}

omit [Primitives] in
/-- A message that passes its check is processed. -/
theorem outcome_of_sane (sane : result s = .ok ()) :
    Command.outcome (do
      let s ← get
      check (result s)
      process) s = process.outcome s := by
  rw [Command.outcome_bind, Command.outcome_get]
  dsimp only
  rw [Command.outcome_bind, check, Command.outcome_ofExcept, sane]
  rfl

omit [Primitives] in
/-- A message that fails it is dropped. -/
theorem outcome_of_refused {e : DagError} (refused : result s = .error e) :
    Command.outcome (do
      let s ← get
      check (result s)
      process) s = (.error (.error e), s) := by
  rw [Command.outcome_bind, Command.outcome_get]
  dsimp only
  rw [Command.outcome_bind, check, Command.outcome_ofExcept, refused]
  rfl

omit [Primitives] in
/-- A message that is refused changes nothing. -/
theorem refused_or_processed {R : State → State → Prop} (pre : State → Prop)
    {post : Unit → State → Prop} (before : pre s)
    (follows : result s = .ok () → Command.Follows R pre process post) :
    Relation.ReflTransGen R s (Command.outcome (do
      let s ← get
      check (result s)
      process) s).2 := by
  cases found : result s with
  | error e =>
      rw [outcome_of_refused found]
  | ok u =>
      rw [outcome_of_sane found]
      exact (follows found s before).1

end Sanitizing

/-- **Processing a message is a sequence of acts.** -/
theorem receive_acts (s : State) (input : Input) :
    Relation.ReflTransGen (node.Acts s input) (s.opened input)
      ((node.receive input).outcome s).2 := by
  cases input with
  | primaries message =>
      change Relation.ReflTransGen _ s _
      cases message with
      | header h =>
          refine refused_or_processed (fun t => t = s) rfl fun sane =>
            (processHeader_acts h).weaken ?_ fun _ _ => id
          rintro _ rfl
          exact ⟨rfl, .inl (.primaries sane), .inr rfl⟩
      | vote v =>
          refine refused_or_processed (fun t => t = s) rfl fun sane =>
            (processVote_acts v).weaken ?_ fun _ _ => id
          rintro _ rfl
          exact ⟨rfl, .received rfl sane⟩
      | certificate c =>
          refine refused_or_processed (fun t => t = s) rfl fun sane =>
            (processCertificate_acts c).weaken ?_ fun _ _ => id
          rintro _ rfl
          exact ⟨rfl, .inl (.primaries sane), .inr rfl⟩
      | certificatesRequest digests requestor => exact .refl
  | headerWaiter h => exact (processHeader_acts h s ⟨rfl, .inl (.headerWaiter h), .inr rfl⟩).1
  | certificateWaiter c =>
      exact (processCertificate_acts c s ⟨rfl, .inl (.certificateWaiter c), .inr rfl⟩).1
  | proposer h =>
      let t : State := (s.propose h).send node.others (.header h)
      have atHand : node.HeaderAtHand s (.proposer h) t h := .inl (.proposer h)
      have same : Current s (.proposer h) t := rfl
      exact .head (.announce _ rfl) (processHeader_acts h t ⟨same, atHand, .inr rfl⟩).1

omit [Primitives] in
/-- The cleanup drops entries of three maps and moves the garbage collected round. -/
theorem cleanup_cases (s : State) (gcDepth : ℕ) : ∃ lastVoted processing aggregators gcRound,
    s.cleanup gcDepth = { s with
      lastVoted := lastVoted
      processing := processing
      certificatesAggregators := aggregators
      gcRound := gcRound } ∧
    ∀ round aggregator, HashMap.get aggregators round = some aggregator →
      HashMap.get s.certificatesAggregators round = some aggregator := by
  unfold State.cleanup
  dsimp only
  split
  · refine ⟨_, _, _, _, rfl, fun round aggregator found => ?_⟩
    rw [HashMap.get_retainKeys] at found
    split at found
    · exact found
    · cases found
  · exact ⟨s.lastVoted, s.processing, s.certificatesAggregators, s.gcRound, rfl,
      fun _ _ found => found⟩

/-- What a step leaves is what processing the message left, after the cleanup or the stop of the
node. -/
theorem after_step {s : State} {input : Input} {during after : State → Prop}
    (left : during ((node.receive input).outcome s).2)
    (cleanup : ∀ t, during t → after (t.cleanup node.gcDepth))
    (halt : ∀ t p, during t → after { t with halted := some p }) : after (node.step s input) := by
  unfold step
  split
  · next found =>
      rw [found] at left
      exact halt _ _ left
  · next found =>
      rw [found] at left
      exact halt _ _ left
  · next found =>
      rw [found] at left
      exact cleanup _ left

/-- **What every act keeps is kept by a step**, and holds of what the step leaves when it survives
the cleanup and the stop of the node. -/
theorem step_acts {s : State} {input : Input} {during after : State → Prop}
    (start : during (s.opened input))
    (acts : ∀ t t', node.Acts s input t t' → during t → during t')
    (cleanup : ∀ t, during t → after (t.cleanup node.gcDepth))
    (halt : ∀ t p, during t → after { t with halted := some p }) : after (node.step s input) :=
  after_step (Command.kept_of_steps acts (receive_acts s input) start) cleanup halt

/-- What the end of a step may change: entries of the maps by round are dropped, the garbage collected
round moves, or the node stops. -/
inductive Settles (s : State) : State → Prop where
  | settle (lastVoted : HashMap ℕ (Finset PublicKey))
      (processing : HashMap ℕ (Finset Digest))
      (aggregators : HashMap ℕ CertificatesAggregator) (gcRound : ℕ) (halted : Option Panic)
      (kept : ∀ round aggregator, HashMap.get aggregators round = some aggregator →
        HashMap.get s.certificatesAggregators round = some aggregator) :
      Settles s { s with
        lastVoted := lastVoted
        processing := processing
        certificatesAggregators := aggregators
        gcRound := gcRound
        halted := halted }

omit [Primitives] in
theorem settles_cleanup (s : State) (gcDepth : ℕ) : Settles s (s.cleanup gcDepth) := by
  obtain ⟨lastVoted, processing, aggregators, gcRound, same, kept⟩ := cleanup_cases s gcDepth
  rw [same]
  exact .settle lastVoted processing aggregators gcRound s.halted kept

omit [Primitives] in
theorem settles_halt (s : State) (p : Panic) : Settles s { s with halted := some p } :=
  .settle s.lastVoted s.processing s.certificatesAggregators s.gcRound (some p) fun _ _ => id

/-- What processing the message left holds after the step when the end of a step does not touch
it. -/
theorem after_step_settles {s : State} {input : Input} {during after : State → Prop}
    (left : during ((node.receive input).outcome s).2)
    (settled : ∀ t t', Settles t t' → during t → after t') : after (node.step s input) :=
  after_step left (fun t => settled t _ (settles_cleanup t _))
    fun t p => settled t _ (settles_halt t p)

/-- **What every act keeps is kept by a step** when the end of a step does not touch it. -/
theorem step_acts_settles {s : State} {input : Input} {during after : State → Prop}
    (start : during (s.opened input))
    (acts : ∀ t t', node.Acts s input t t' → during t → during t')
    (settled : ∀ t t', Settles t t' → during t → after t') : after (node.step s input) :=
  after_step_settles (Command.kept_of_steps acts (receive_acts s input) start) settled

/-- **What every act keeps is kept by a message** when its end and a new header of this primary do not
touch it. -/
theorem advance_kept (holds : State → Prop) {s : State} {input : Input} (before : holds s)
    (opened : holds (s.opened input))
    (acts : ∀ t t', node.Acts s input t t' → holds t → holds t')
    (settled : ∀ t t', Settles t t' → holds t → holds t') :
    holds (node.advance s (.core input)) := by
  have stepped : holds (node.step s input) := step_acts_settles opened acts settled
  unfold Core.advance
  dsimp only
  split
  · exact before
  · exact stepped

variable (node) in
omit [Primitives] in
/-- The garbage collected round is behind the consensus by the depth of the collector. -/
def Lags (s : State) : Prop := s.gcRound ≤ s.consensusRound - node.gcDepth

omit [Primitives] in
theorem Lags.cleanup {s : State} (lags : node.Lags s) : node.Lags (s.cleanup node.gcDepth) := by
  unfold State.cleanup
  dsimp only
  split
  · exact le_rfl
  · exact lags

/-- **The garbage collected round stays behind the consensus.** -/
theorem Lags.advance {s : State} {event : Event} (lags : node.Lags s)
    (admissible : node.Admissible s event) : node.Lags (node.advance s event) := by
  cases event with
  | batch => exact lags
  | consensus round =>
      have later : s.consensusRound ≤ round := admissible
      exact le_trans lags (Nat.sub_le_sub_right later _)
  | core input =>
      refine advance_core lags fun _ => ?_
      have start : node.Lags (s.opened input) := by cases input <;> exact lags
      refine step_acts start (fun t t' acts lags => ?_) (fun t lags => lags.cleanup)
        fun t p lags => lags
      unfold Lags
      rw [acts.rounds.1, acts.rounds.2]
      exact lags

end Tusk.Core
