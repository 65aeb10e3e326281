import Tusk.Primary.FaultyCore
import Tusk.Primary.Helper

/-!
# What is done after a write that failed

A storage failure is to stop the node, but a put that fails is not noticed by anyone. What is done on
the strength of the puts of a run is given by the puts (`run_matched`): the readers that wait for the
key are answered, a header is voted for unless its author has a vote for the round, and a certificate
is counted as a parent and sent to the consensus. Nothing tells the puts that failed from the others.
So nothing is done on the strength of a put that failed if and only if all puts that failed are of no
consequence (`acts_on_stored_iff`), and a primary whose database always fails votes for the first
header it gets (`vote_of_failed_write`).
-/

set_option autoImplicit false

namespace Tusk

open Lib

namespace FaultyCore

section Runs

variable [Primitives]

/-- The Core can vote for the header: its author has no vote for the round, and the vote can be
sent. -/
def Votes (node : FaultyCore) (core : Core.State) (h : Header) : Prop :=
  h.author ∉ HashMap.bucket core.lastVoted h.round ∧
    (h.author = node.name ∨ (node.committee.primary h.author).isOk = true)

instance (node : FaultyCore) (core : Core.State) (h : Header) : Decidable (node.Votes core h) :=
  inferInstanceAs (Decidable (_ ∧ _))

/-- A put that nobody waits for, of the report of a batch or of a header that gets no vote. -/
def Idle (node : FaultyCore) (put : Put) : Prop :=
  put.waiters = [] ∧
    match put.value with
    | .header h => ¬ node.Votes put.core h
    | .certificate _ => False
    | .empty => True

/-- All that was done was done on the strength of a put of its key and value that succeeded. -/
def ActsOnStored (s : State) : Prop :=
  ∀ effect ∈ s.effects, ∃ put, s.puts[effect.put]? = some put ∧
    put.key = effect.key ∧ put.value = effect.value ∧ put.failed = false

/-! ## What is done on the strength of a put -/

/-- What the Core does once it has put a value. -/
def owed (node : FaultyCore) (core : Core.State) (n : ℕ) : StoreValue → List Effect
  | .header h => if node.Votes core h then [.voted h n] else []
  | .certificate c => [.delivered c n]
  | .empty => []

/-- What is done on the strength of a put. -/
def due (node : FaultyCore) (put : Put) (n : ℕ) : List Effect :=
  (put.waiters.map fun reader => .answered reader put.key put.value n) ++
    node.owed put.core n put.value

variable {node : FaultyCore}

omit [Primitives] in
theorem due_eq_nil_iff {put : Put} {n : ℕ} : node.due put n = [] ↔ node.Idle put := by
  unfold due Idle owed
  rw [List.append_eq_nil_iff, List.map_eq_nil_iff]
  cases put.value <;> simp

/-- What is done on the strength of a put needs its key and its value. -/
theorem due_needs {put : Put} {n : ℕ} {effect : Effect} (under : Helper.Under put.key put.value)
    (member : effect ∈ node.due put n) :
    effect.put = n ∧ put.key = effect.key ∧ put.value = effect.value := by
  rcases List.mem_append.mp member with answer | owes
  · obtain ⟨reader, -, rfl⟩ := List.mem_map.mp answer
    exact ⟨rfl, rfl, rfl⟩
  · unfold owed at owes
    split at owes
    · next h found =>
        split at owes
        · obtain rfl := List.mem_singleton.mp owes
          rw [found] at under
          exact ⟨rfl, under, found⟩
        · exact absurd owes List.not_mem_nil
    · next c found =>
        obtain rfl := List.mem_singleton.mp owes
        rw [found] at under
        exact ⟨rfl, under, found⟩
    · exact absurd owes List.not_mem_nil

/-! ## The acts -/

variable (node) in
/-- The state after a put and what the Core does next. -/
def wrote (s : State) (key : List UInt8) (value : StoreValue) (core : Core.State) : State :=
  { node.put s key value with
    core := core
    effects := (node.put s key value).effects ++ node.owed s.core s.puts.length value }

variable (node) in
/-- The changes of the state. -/
inductive Acts : State → State → Prop where
  | core (s : State) (core : Core.State) : Acts s (corePart.replace s core)
  | write (s : State) {key : List UInt8} {value : StoreValue} (under : Helper.Under key value)
      (core : Core.State) : Acts s (node.wrote s key value core)

variable (node) in
/-- The command goes from one state to the next by acts. -/
abbrev OfActs {α : Type} (command : FaultyM α) : Prop :=
  Command.Follows node.Acts (fun _ => True) command fun _ _ => True

/-- A command of the Core is one act. -/
theorem on_acts {α : Type} (command : Core.CoreM α) {pre : State → Prop} :
    Command.Follows node.Acts pre (corePart.on command) fun _ _ => True :=
  Part.on_follows Acts.core

section Processing

variable {processVote : Vote → FaultyM Unit} {processCertificate : Certificate → FaultyM Unit}
  {processHeader : Header → FaultyM Unit}

/-- The outcome of the vote for a header, in a state in which its author has no vote for the round. -/
theorem outcome_castVote {h : Header} {n : ℕ} {s : State}
    (first : h.author ∉ HashMap.bucket s.core.lastVoted h.round) :
    (node.castVote processVote h n).outcome s =
      let voted := s.core.createVote h (node.voteFor h)
      if h.author = node.name then
        ((processVote (node.voteFor h)).interruptWith (Interrupt.expect .ownVote)).outcome
          ((corePart.replace s voted).note (.voted h n))
      else
        match node.committee.primary h.author with
        | .ok address => (.ok (), (corePart.replace s (voted.send [address.primaryToPrimary]
            (.vote (node.voteFor h)))).note (.voted h n))
        | .error _ => (.error (.panic .unknownAuthor), corePart.replace s voted) := by
  unfold castVote
  rw [Command.outcome_bind, Command.outcome_get]
  dsimp only
  rw [if_neg first, Command.outcome_bind, Part.outcome_on, Command.outcome_modify]
  dsimp only
  by_cases own : h.author = node.name
  · rw [if_pos own, if_pos (show (node.voteFor h).origin = node.name from own)]
    rfl
  · rw [if_neg own, if_neg (show (node.voteFor h).origin ≠ node.name from own),
      Command.outcome_bind, Command.outcome_ofExcept]
    cases node.committee.primary h.author <;> rfl

omit [Primitives] in
theorem owed_of_votes {h : Header} {core : Core.State} {n : ℕ} (votes : node.Votes core h) :
    node.owed core n (.header h) = [.voted h n] :=
  if_pos votes

omit [Primitives] in
theorem owed_of_not_votes {h : Header} {core : Core.State} {n : ℕ} (votes : ¬ node.Votes core h) :
    node.owed core n (.header h) = [] :=
  if_neg votes

omit [Primitives] in
theorem wrote_of_votes {h : Header} {s : State} (votes : node.Votes s.core h) (key : List UInt8)
    (core : Core.State) :
    (corePart.replace (node.put s key (.header h)) core).note (.voted h s.puts.length) =
      node.wrote s key (.header h) core := by
  unfold wrote
  rw [owed_of_votes votes]
  rfl

omit [Primitives] in
theorem wrote_of_not_votes {h : Header} {s : State} (votes : ¬ node.Votes s.core h)
    (key : List UInt8) (core : Core.State) :
    corePart.replace (node.put s key (.header h)) core = node.wrote s key (.header h) core := by
  unfold wrote
  rw [owed_of_not_votes votes, List.append_nil]
  rfl

/-- A header is put and voted for in one act. -/
theorem castVote_acts {h : Header}
    (onVote : ∀ v, node.OfActs (processVote v)) :
    node.OfActs (node.write h.id.asRef (.header h) >>= node.castVote processVote h) := by
  intro s _
  have act : ∀ core, node.Acts s (node.wrote s h.id.asRef (.header h) core) := .write s rfl
  let t := node.put s h.id.asRef (.header h)
  have steps : Relation.ReflTransGen node.Acts s
      ((node.castVote processVote h s.puts.length).outcome t).2 := by
    by_cases first : h.author ∈ HashMap.bucket t.core.lastVoted h.round
    · have silent : ¬ node.Votes s.core h := fun votes => votes.1 first
      have returns : (node.castVote processVote h s.puts.length).outcome t = (.ok (), t) := by
        unfold castVote
        rw [Command.outcome_bind, Command.outcome_get]
        dsimp only
        rw [if_pos first]
        rfl
      rw [returns, show t = corePart.replace t t.core from rfl, wrote_of_not_votes silent]
      exact .single (act _)
    · rw [outcome_castVote first]
      dsimp only
      split
      · next own =>
          have votes : node.Votes s.core h := ⟨first, .inl own⟩
          rw [wrote_of_votes votes]
          have rest : node.OfActs (Command.interruptWith (Interrupt.expect .ownVote)
            (processVote (node.voteFor h))) := (onVote _).interruptWith
          exact .head (act _) (rest _ trivial).1
      · next other =>
          cases found : node.committee.primary h.author with
          | error e =>
              have silent : ¬ node.Votes s.core h := by
                rintro ⟨-, own | knows⟩
                · exact other own
                · rw [found] at knows
                  exact Bool.false_ne_true knows
              dsimp only
              rw [wrote_of_not_votes silent]
              exact .single (act _)
          | ok address =>
              have votes : node.Votes s.core h := ⟨first, .inr (by rw [found]; rfl)⟩
              dsimp only
              rw [wrote_of_votes votes]
              exact .single (act _)
  exact ⟨steps, fun _ _ => trivial⟩

theorem processHeaderWith_acts
    (onVote : ∀ v, node.OfActs (processVote v))
    (h : Header) :
    node.OfActs (node.processHeaderWith processVote h) := by
  unfold processHeaderWith
  apply Command.Follows.bind (on_acts _)
  intro ready
  split
  · exact castVote_acts onVote
  · exact .pure fun _ _ => trivial

theorem processVoteWith_acts
    (onCertificate : ∀ c, node.OfActs (processCertificate c)) (v : Vote) :
    node.OfActs (node.processVoteWith processCertificate v) := by
  unfold processVoteWith
  apply Command.Follows.bind_get
  intro s
  apply Command.Follows.bind (on_acts _)
  rintro ⟨aggregator, assembled⟩
  apply Command.Follows.bind (on_acts _)
  intro _
  cases assembled with
  | none => exact .pure fun _ _ => trivial
  | some c =>
      apply Command.Follows.bind (on_acts _)
      intro _
      exact (onCertificate c).interruptWith

theorem processCertificateWith_acts
    (onHeader : ∀ h, node.OfActs (processHeader h)) (c : Certificate) :
    node.OfActs (node.processCertificateWith processHeader c) := by
  have embedded : node.OfActs (processEmbedded processHeader c) := by
    unfold processEmbedded
    apply Command.Follows.bind_get
    intro s
    split
    · exact (onHeader c.header).weaken (fun _ _ => trivial) fun _ _ => id
    · exact .pure fun _ _ => trivial
  unfold processCertificateWith
  apply Command.Follows.bind embedded
  intro _
  apply Command.Follows.bind (on_acts _)
  intro delivered
  split
  · -- the certificate is put and delivered in one act
    intro s _
    have act : ∀ core, node.Acts s (node.wrote s c.digest.asRef (.certificate c) core) :=
      .write s rfl
    exact ⟨.single (act _), fun _ _ => trivial⟩
  · exact .pure fun _ _ => trivial

theorem processHeaderTo_acts (depth : ℕ) (h : Header) :
    node.OfActs (node.processHeaderTo (fun _ => pure ()) depth h) := by
  induction depth generalizing h with
  | zero => exact .pure fun _ _ => trivial
  | succ depth ih =>
      exact processHeaderWith_acts (processVoteWith_acts (processCertificateWith_acts ih)) h

/-- **Processing a message is a sequence of acts.** -/
theorem receive_acts (input : Core.Input) : node.OfActs (node.receive input) := by
  have onHeader : ∀ h, node.OfActs (node.processHeader h) := processHeaderTo_acts 2
  have onCertificate : ∀ c, node.OfActs (node.processCertificate c) :=
    processCertificateWith_acts onHeader
  have checked : ∀ (result : Core.State → Except DagError Unit) {process : FaultyM Unit},
      node.OfActs process →
      node.OfActs (do let s ← get; corePart.on (Core.check (result s.core)); process) := by
    intro result process ofActs
    apply Command.Follows.bind_get
    intro s
    apply Command.Follows.bind (on_acts _)
    intro _
    exact ofActs
  cases input with
  | primaries message =>
      cases message with
      | header h => exact checked (node.sanitizeHeader · h) (onHeader h)
      | vote v => exact checked (node.sanitizeVote · v) (processVoteWith_acts onCertificate v)
      | certificate c => exact checked (node.sanitizeCertificate · c) (onCertificate c)
      | certificatesRequest => exact .ofExcept fun _ impossible => nomatch impossible
  | headerWaiter h => exact onHeader h
  | certificateWaiter c => exact onCertificate c
  | proposer h =>
      apply Command.Follows.bind (on_acts _)
      intro _
      apply Command.Follows.bind (on_acts _)
      intro _
      exact onHeader h

end Processing

/-! ## Runs -/

/-- What was done is what the puts give rise to. -/
structure Matched (node : FaultyCore) (s : State) : Prop where
  effects : s.effects = s.puts.zipIdx.flatMap fun entry => node.due entry.1 entry.2
  under : ∀ put ∈ s.puts, Helper.Under put.key put.value

omit [Primitives] in
/-- A put leaves its record. -/
theorem puts_wrote {s : State} {key : List UInt8} {value : StoreValue} {core : Core.State} :
    (node.wrote s key value core).puts =
      s.puts ++ [⟨key, value, node.fails s.puts.length, s.task.waiters key, s.core⟩] := rfl

omit [Primitives] in
theorem effects_wrote {s : State} {key : List UInt8} {value : StoreValue} {core : Core.State} :
    (node.wrote s key value core).effects = s.effects ++
      node.due ⟨key, value, node.fails s.puts.length, s.task.waiters key, s.core⟩ s.puts.length := by
  have answers := @StoreTask.handle_write_snd _ _ _ s.task (node.fails s.puts.length) s.readers key
    value
  unfold wrote put due
  dsimp only
  rw [answers, List.map_map, List.append_assoc]
  rfl

/-- **An act keeps the match.** -/
theorem Matched.acts {s s' : State} (acts : node.Acts s s') (matched : node.Matched s) :
    node.Matched s' := by
  obtain ⟨effects, under⟩ := matched
  cases acts with
  | core => exact ⟨effects, under⟩
  | @write key value keyed core =>
      refine ⟨?_, fun put member => ?_⟩
      · rw [effects_wrote, puts_wrote, List.zipIdx_append, List.flatMap_append, ← effects]
        simp
      · rw [puts_wrote] at member
        rcases List.mem_append.mp member with old | new
        · exact under put old
        · obtain rfl := List.mem_singleton.mp new
          exact keyed

theorem Matched.step {s : State} (matched : node.Matched s) (input : Core.Input) :
    node.Matched (node.step s input) := by
  have left : node.Matched ((node.receive input).outcome s).2 :=
    (receive_acts input).keeps (fun _ _ acts matched => matched.acts acts) trivial matched
  unfold FaultyCore.step
  split <;> next found =>
    rw [found] at left
    exact left.acts (.core _ _)

theorem Matched.advance {s : State} (matched : node.Matched s) (event : Event) :
    node.Matched (node.advance s event) := by
  cases event with
  | notifyRead key => exact ⟨matched.effects, matched.under⟩
  | core event =>
      cases event with
      | core input =>
          unfold FaultyCore.advance
          dsimp only
          split
          · exact matched
          · exact matched.step input
      | batch digest workerId =>
          have under : Helper.Under (Store.payloadKey digest workerId) .empty := fun other =>
            Store.payloadKey_ne_asRef digest other workerId
          have written := matched.acts
            (.write s under (node.put s (Store.payloadKey digest workerId) .empty).core)
          have same : node.wrote s (Store.payloadKey digest workerId) .empty
              (node.put s (Store.payloadKey digest workerId) .empty).core =
              node.put s (Store.payloadKey digest workerId) .empty := by
            unfold wrote owed
            rw [List.append_nil]
          rw [same] at written
          exact written
      | consensus round => exact matched.acts (.core s _)

/-- **In every run what was done is what the puts give rise to.** -/
theorem run_matched (node : FaultyCore) (events : List Event) : node.Matched (node.run events) := by
  induction events using List.reverseRecOn with
  | nil => exact ⟨rfl, fun _ member => absurd member List.not_mem_nil⟩
  | append_singleton events event ih =>
      rw [run_snoc]
      exact ih.advance event

theorem Matched.mem_effects {s : State} (matched : node.Matched s) {effect : Effect} :
    effect ∈ s.effects ↔ ∃ n put, s.puts[n]? = some put ∧ effect ∈ node.due put n := by
  rw [matched.effects, List.mem_flatMap]
  constructor
  · rintro ⟨⟨put, n⟩, member, owes⟩
    exact ⟨n, put, List.mem_zipIdx_iff_getElem?.mp member, owes⟩
  · rintro ⟨n, put, found, owes⟩
    exact ⟨(put, n), List.mem_zipIdx_iff_getElem?.mpr found, owes⟩

/-- **When a failed write is never acted upon.** In every run of a primary, with every pattern of
failures of the database, all that is done rests on a put that succeeded if and only if every put that
fails is one that nobody waits for, of the report of a batch or of a header that gets no vote. -/
theorem acts_on_stored_iff (node : FaultyCore) (events : List Event) :
    ActsOnStored (node.run events) ↔
      ∀ put ∈ (node.run events).puts, put.failed = true → node.Idle put := by
  have matched := run_matched node events
  constructor
  · intro stored put member failed
    obtain ⟨n, found⟩ := List.getElem?_of_mem member
    apply due_eq_nil_iff.mp
    apply List.eq_nil_iff_forall_not_mem.mpr
    intro effect owes
    have number := (due_needs (matched.under put member) owes).1
    obtain ⟨put', found', -, -, succeeded⟩ :=
      stored effect (matched.mem_effects.mpr ⟨n, put, found, owes⟩)
    rw [number, found] at found'
    cases found'
    rw [failed] at succeeded
    exact Bool.false_ne_true succeeded.symm
  · intro idle effect member
    obtain ⟨n, put, found, owes⟩ := matched.mem_effects.mp member
    have among := List.mem_of_getElem? found
    obtain ⟨number, key, value⟩ := due_needs (matched.under put among) owes
    refine ⟨put, number ▸ found, key, value, ?_⟩
    by_contra failed
    rw [due_eq_nil_iff.mpr (idle put among (Bool.eq_true_of_not_eq_false failed))] at owes
    exact List.not_mem_nil owes

end Runs

/-! ## A vote for a header that is not stored -/

section FiveAuthorities

local instance faultySign : Primitives := executable fun _ _ => true

/-- The third authority with a database on which every put fails. -/
def failingAuthority : FaultyCore := { Core.thirdAuthority with fails := fun _ => true }

/-- **A vote is sent for a header whose write failed.** -/
theorem vote_of_failed_write : ¬ ∀ (node : FaultyCore) (events : List Event),
    Throughout node.toCore.advance node.toCore.Admissible {} (events.filterMap Event.ofCore) →
      ActsOnStored (node.run events) := by
  intro stored
  let events : List Event := [.core (.core (.primaries (.header (Core.firstRound ⟨4⟩).header)))]
  have holds := stored failingAuthority events (by decide +kernel)
  have succeeded : ∀ effect ∈ (failingAuthority.run events).effects,
      (failingAuthority.run events).puts[effect.put]?.map Put.failed = some false := by
    intro effect member
    obtain ⟨put, found, -, -, succeeds⟩ := holds effect member
    rw [found, Option.map_some, succeeds]
  exact absurd succeeded (by decide +kernel)

end FiveAuthorities

end FaultyCore

end Tusk
