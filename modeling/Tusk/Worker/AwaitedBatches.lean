import Tusk.Lib.Runs
import Tusk.Worker.Storage

/-!
# A requested batch is awaited until it is stored

The Synchronizer of a worker keeps a batch that its primary has asked for among the pending ones, with a
waiter on the store, until the waiter ends or the primary has moved on by the depth of the garbage
collection. The pending map and the waiters may drift apart. A waiter whose entry was cleaned up may still
end with its batch, and then removes the entry that a newer request has made, whose waiter is cancelled by
this. But a waiter ends with its batch only when the batch is in the store, so this does no harm: a batch
that is asked for stays pending until it is stored or the primary has moved on, and is asked for again after
the delay (`awaited_until_stored`).

The Synchronizer is taken with the store, which the Processors write. A read of the store may fail, and a
waiter whose read fails ends without a result. Its entry stays.
-/

set_option autoImplicit false

namespace Tusk.Worker.Synchronizer

open Lib

/-! ## The pending batches and their waiters -/

/-- Each pending batch has its waiter, unless this one has failed, and numbers are used once. -/
structure Attended (failed : List ℕ) (s : State) : Prop where
  distinct : (s.waiting.map Prod.fst).Nodup
  numbers : ∀ w ∈ s.waiting, w.1 < s.waiters
  holding : ∀ digest entry, HashMap.get s.pending digest = some entry →
    (entry.waiter, digest) ∈ s.waiting ∨ entry.waiter ∈ failed

variable {synchronizer : Synchronizer} {reads : Reads} {s : State} {failed : List ℕ} {digest : Digest}
  {entry : Pending} {now : ℕ}

theorem Attended.eq_of_number (attended : Attended failed s) {v w : ℕ × Digest} (inside : v ∈ s.waiting)
    (inside' : w ∈ s.waiting) (same : v.1 = w.1) : v = w :=
  List.inj_on_of_nodup_map attended.distinct inside inside' same

theorem Attended.await (attended : Attended failed s) (digest : Digest) (now : ℕ) :
    Attended failed (s.await digest now) := by
  obtain ⟨distinct, numbers, holding⟩ := attended
  refine ⟨?_, ?_, fun other entry found => ?_⟩
  · show ((s.waiting ++ [(s.waiters, digest)]).map Prod.fst).Nodup
    rw [List.map_append, List.nodup_append]
    refine ⟨distinct, List.nodup_singleton _, fun number before last new same => ?_⟩
    obtain ⟨w, inside, rfl⟩ := List.mem_map.mp before
    rw [List.mem_singleton.mp new] at same
    exact absurd same (numbers w inside).ne
  · refine List.forall_mem_append.mpr ⟨fun w inside => (numbers w inside).trans (Nat.lt_succ_self _), ?_⟩
    exact List.forall_mem_singleton.mpr (Nat.lt_succ_self _)
  · change HashMap.get (HashMap.insert s.pending digest _) other = some entry at found
    rw [HashMap.get_insert] at found
    split_ifs at found with same
    · cases found
      exact .inl (List.mem_append_right _ (same ▸ List.mem_singleton_self _))
    · exact (holding other entry found).imp_left (List.mem_append_left _)

/-- What looking at digests keeps: the waiters attend, and what was pending stays. -/
theorem Attended.lookUp (digests : List Digest) (found : State × List Digest)
    (attended : Attended failed found.1) :
    Attended failed (digests.foldl (lookUp reads now) found).1 ∧
      ∀ digest entry, HashMap.get found.1.pending digest = some entry →
        HashMap.get (digests.foldl (lookUp reads now) found).1.pending digest = some entry := by
  induction digests generalizing found with
  | nil => exact ⟨attended, fun _ _ pending => pending⟩
  | cons digest digests ih =>
      have next : Attended failed (Synchronizer.lookUp reads now found digest).1 ∧
          ∀ other entry, HashMap.get found.1.pending other = some entry →
            HashMap.get (Synchronizer.lookUp reads now found digest).1.pending other = some entry := by
        by_cases awaited : found.1.awaits digest = true
        · simp only [Synchronizer.lookUp, awaited, if_true]
          exact ⟨attended, fun _ _ pending => pending⟩
        · -- a digest that is not pending gets an entry of its own
          have kept : ∀ other entry, HashMap.get found.1.pending other = some entry →
              HashMap.get (found.1.await digest now).pending other = some entry := by
            intro other entry pending
            have different : other ≠ digest := by
              rintro rfl
              exact awaited (Option.isSome_iff_exists.mpr ⟨entry, pending⟩)
            show HashMap.get (HashMap.insert found.1.pending digest _) other = some entry
            rw [HashMap.get_insert, if_neg different]
            exact pending
          simp only [Synchronizer.lookUp, awaited, if_false, Bool.false_eq_true]
          cases reads digest with
          | error e => exact ⟨attended, fun _ _ pending => pending⟩
          | ok value => cases value <;> exact ⟨attended.await digest now, kept⟩
      obtain ⟨rest, stays⟩ := ih _ next.1
      exact ⟨rest, fun other entry pending => stays other entry (next.2 other entry pending)⟩

/-- The request that follows changes neither. -/
theorem synchronize_eq (reads : Reads) (s : State) (digests : List Digest) (target : PublicKey)
    (now : ℕ) :
    (synchronizer.synchronize reads s digests target now).pending =
        (digests.foldl (Synchronizer.lookUp reads now) (s, [])).1.pending ∧
      (synchronizer.synchronize reads s digests target now).waiting =
        (digests.foldl (Synchronizer.lookUp reads now) (s, [])).1.waiting ∧
      (synchronizer.synchronize reads s digests target now).waiters =
        (digests.foldl (Synchronizer.lookUp reads now) (s, [])).1.waiters := by
  unfold synchronize
  dsimp only
  split <;> exact ⟨rfl, rfl, rfl⟩

/-- **A digest that can be read is pending after the request.** -/
theorem pending_synchronize {digests : List Digest} (target : PublicKey) (asked : digest ∈ digests)
    (readable : ∀ e, reads digest ≠ .error e) :
    ∃ entry, HashMap.get (synchronizer.synchronize reads s digests target now).pending digest =
      some entry := by
  rw [(synchronize_eq reads s digests target now).1]
  refine Option.isSome_iff_exists.mp ?_
  show (digests.foldl (Synchronizer.lookUp reads now) (s, [])).1.awaits digest = true
  generalize (s, ([] : List Digest)) = found
  -- once it is awaited it stays so
  have awaits : ∀ (found : State × List Digest) (other : Digest), found.1.awaits digest = true →
      (Synchronizer.lookUp reads now found other).1.awaits digest = true := by
    intro found other awaited
    unfold Synchronizer.lookUp
    split_ifs
    · exact awaited
    · split
      · exact awaits_await.mpr (.inr awaited)
      · exact awaits_await.mpr (.inr awaited)
      · exact awaited
  have stays : ∀ (more : List Digest) (found : State × List Digest), found.1.awaits digest = true →
      (more.foldl (Synchronizer.lookUp reads now) found).1.awaits digest = true := by
    intro more
    induction more with
    | nil => exact fun _ awaited => awaited
    | cons other more ih => exact fun found awaited => ih _ (awaits found other awaited)
  obtain ⟨before, after, rfl⟩ := List.append_of_mem asked
  rw [List.foldl_append, List.foldl_cons]
  refine stays after _ ?_
  generalize before.foldl (Synchronizer.lookUp reads now) found = found
  unfold Synchronizer.lookUp
  split_ifs with awaited
  · exact awaited
  · cases answer : reads digest with
    | error e => exact absurd answer (readable e)
    | ok value => cases value <;> exact awaits_await.mpr (.inl rfl)

theorem Attended.retry (attended : Attended failed s) (now : ℕ) (shuffled : List SocketAddr) :
    Attended failed (synchronizer.retry s now shuffled) := by
  unfold Synchronizer.retry
  dsimp only
  split_ifs
  · exact attended
  · exact ⟨attended.distinct, attended.numbers, attended.holding⟩

theorem pending_retry (s : State) (now : ℕ) (shuffled : List SocketAddr) :
    (synchronizer.retry s now shuffled).pending = s.pending := by
  unfold Synchronizer.retry
  dsimp only
  split_ifs <;> rfl

/-- **After the delay a pending batch is asked for again.** -/
theorem retry_names (pending : HashMap.get s.pending digest = some entry)
    (late : entry.timestamp + synchronizer.syncRetryDelay < now) (shuffled : List SocketAddr) :
    ∃ missing, digest ∈ missing ∧ (synchronizer.retry s now shuffled).network =
      s.network ++ [(shuffled.take synchronizer.syncRetryNodes,
        .batchRequest missing synchronizer.name)] := by
  let old := (HashMap.items s.pending).filter fun entry =>
    decide (entry.2.timestamp + synchronizer.syncRetryDelay < now)
  have inside : (digest, entry) ∈ old :=
    List.mem_filter.mpr ⟨HashMap.mem_items.mpr pending, decide_eq_true late⟩
  have named : digest ∈ old.map Prod.fst := List.mem_map.mpr ⟨_, inside, rfl⟩
  refine ⟨old.map Prod.fst, named, ?_⟩
  unfold Synchronizer.retry
  dsimp only
  rw [if_neg (by rw [List.isEmpty_iff]; exact List.ne_nil_of_mem inside)]
  rfl

/-! ## The Synchronizer and the store -/

/-- The Synchronizer with the store of the worker. -/
structure Station where
  synchronizer : State := {}
  store : Batches := ∅
  /-- The waiters whose read of the store has failed. -/
  failed : List ℕ := []

namespace Station

/-- What happens at the Synchronizer and around it. -/
inductive Event where
  /-- The Synchronizer takes a step. Some reads of the store may fail. -/
  | task (event : Synchronizer.Event) (fails : Digest → Bool)
  /-- The read of a waiter fails. -/
  | fail (number : ℕ)
  /-- A batch is written to the store. -/
  | write (digest : Digest) (batch : List UInt8)

variable (synchronizer) in
/-- The state after an event. -/
def advance (s : Station) : Event → Station
  | .task event fails =>
      { s with synchronizer := synchronizer.advance (readsOf s.store fails) s.synchronizer event }
  | .fail number =>
      { s with
        -- An error is logged. The pending list is left alone.
        synchronizer := { s.synchronizer with
          waiting := s.synchronizer.waiting.filter fun other => decide (other.1 ≠ number) }
        failed := s.failed ++ [number] }
  | .write digest batch => { s with store := HashMap.insert s.store digest batch }

/-- Whether a batch is in the store. -/
def Stores (s : Station) (digest : Digest) : Prop := (HashMap.get s.store digest).isSome = true

instance (s : Station) (digest : Digest) : Decidable (s.Stores digest) :=
  inferInstanceAs (Decidable (_ = true))

/-- A waiter has its batch when this is in the store, and is cancelled when its entry is gone. -/
def Admissible (s : Station) : Event → Prop
  | .task (.delivered number) _ => ∀ w ∈ s.synchronizer.waiting, w.1 = number → s.Stores w.2
  | .task (.cancelled number) _ =>
      ∀ entry ∈ HashMap.items s.synchronizer.pending, entry.2.waiter ≠ number
  | _ => True

instance (s : Station) : ∀ event, Decidable (s.Admissible event)
  | .task (.delivered _) _ => inferInstanceAs (Decidable (∀ w ∈ _, _ = _ → _))
  | .task (.cancelled _) _ => inferInstanceAs (Decidable (∀ entry ∈ _, _ ≠ _))
  | .task (.primary _ _) _ => inferInstanceAs (Decidable True)
  | .task (.timer _ _) _ => inferInstanceAs (Decidable True)
  | .fail _ => inferInstanceAs (Decidable True)
  | .write _ _ => inferInstanceAs (Decidable True)

variable (synchronizer) in
/-- The state after a run. -/
def run (events : List Event) : Station := events.foldl (advance synchronizer) {}

variable {t : Station} {event : Event}

/-- What a step does to a pending batch. -/
inductive Outcome (synchronizer : Synchronizer) (t u : Station) (event : Event) (digest : Digest)
    (entry : Pending) : Prop where
  /-- It stays pending. -/
  | stays (pending : HashMap.get u.synchronizer.pending digest = some entry)
  /-- It is in the store. -/
  | stored (stored : u.Stores digest)
  /-- The primary has moved on. -/
  | dropped {round now : ℕ} {fails : Digest → Bool}
      (cleans : event = .task (.primary (.cleanup round) now) fails)
      (past : entry.round + synchronizer.gcDepth ≤ round)

theorem attended_filter (attended : Attended t.failed t.synchronizer) {number : ℕ}
    {pending : HashMap Digest Pending} {failed : List ℕ} (more : t.failed ⊆ failed)
    (holding : ∀ digest entry, HashMap.get pending digest = some entry →
      HashMap.get t.synchronizer.pending digest = some entry ∧
        ((entry.waiter, digest) ∈ t.synchronizer.waiting →
          entry.waiter ≠ number ∨ entry.waiter ∈ failed)) :
    Attended failed { t.synchronizer with
      pending := pending
      waiting := t.synchronizer.waiting.filter fun other => decide (other.1 ≠ number) } := by
  obtain ⟨distinct, numbers, held⟩ := attended
  refine ⟨distinct.sublist (List.filter_sublist.map _),
    fun w inside => numbers w (List.mem_of_mem_filter inside), fun digest entry found => ?_⟩
  obtain ⟨before, other⟩ := holding digest entry found
  rcases held digest entry before with waits | fails
  · exact (other waits).imp_left fun different => List.mem_filter.mpr ⟨waits, decide_eq_true different⟩
  · exact .inr (more fails)

/-- **The waiters attend to what is pending**, whatever happens. -/
theorem attended_advance (attended : Attended t.failed t.synchronizer) (admissible : t.Admissible event) :
    Attended (t.advance synchronizer event).failed (t.advance synchronizer event).synchronizer := by
  cases event with
  | write => exact attended
  | fail number =>
      refine attended_filter attended (List.subset_append_left _ _) fun digest entry found => ⟨found, ?_⟩
      intro _
      by_cases same : entry.waiter = number
      · exact .inr (List.mem_append_right _ (same ▸ List.mem_singleton_self _))
      · exact .inl same
  | task event fails =>
      cases event with
      | primary message now =>
          cases message with
          | synchronize digests target =>
              obtain ⟨pending, waiting, waiters⟩ := @synchronize_eq synchronizer
                (readsOf t.store fails) t.synchronizer digests target now
              obtain ⟨⟨distinct, numbers, holding⟩, -⟩ := @Attended.lookUp (readsOf t.store fails)
                t.failed now digests (t.synchronizer, []) attended
              exact ⟨waiting.symm ▸ distinct, waiting.symm ▸ waiters.symm ▸ numbers,
                waiting.symm ▸ pending.symm ▸ holding⟩
          | cleanup round =>
              obtain ⟨distinct, numbers, holding⟩ := attended
              show Attended t.failed (synchronizer.cleanup t.synchronizer round)
              unfold cleanup
              split_ifs
              · exact ⟨distinct, numbers, holding⟩
              · exact ⟨distinct, numbers, fun digest entry found =>
                  holding digest entry (HashMap.get_retain_eq_some_iff.mp found).1⟩
          | batchSilent => exact attended
      | delivered number =>
          show Attended t.failed
            (synchronizer.advance (readsOf t.store fails) t.synchronizer (.delivered number))
          unfold Synchronizer.advance
          dsimp only
          cases ended : t.synchronizer.waiting.find? fun other => decide (other.1 = number) with
          | none => exact attended
          | some w =>
              obtain ⟨number', digest⟩ := w
              have inside := List.mem_of_find?_eq_some ended
              have same : number' = number := by simpa using List.find?_some ended
              refine attended_filter attended (List.Subset.refl _) fun other entry found => ?_
              rw [HashMap.get_remove] at found
              split_ifs at found with different
              refine ⟨found, fun waits => .inl fun equal => different ?_⟩
              have one := attended.eq_of_number waits inside (equal.trans same.symm)
              exact (Prod.mk.inj one).2
      | cancelled number =>
          refine attended_filter attended (List.Subset.refl _) fun digest entry found => ⟨found, fun _ => ?_⟩
          exact .inl (admissible (digest, entry) (HashMap.mem_items.mpr found))
      | timer now shuffled => exact attended.retry now shuffled

/-- **A step leaves a batch pending until it is stored or the primary has moved on.** -/
theorem outcome_advance (pending : HashMap.get t.synchronizer.pending digest = some entry)
    (attended : Attended t.failed t.synchronizer) (admissible : t.Admissible event) :
    Outcome synchronizer t (t.advance synchronizer event) event digest entry := by
  cases event with
  | write => exact .stays pending
  | fail => exact .stays pending
  | task event fails =>
      cases event with
      | primary message now =>
          cases message with
          | synchronize digests target =>
              refine .stays ?_
              show HashMap.get (synchronizer.synchronize (readsOf t.store fails) t.synchronizer digests
                target now).pending digest = some entry
              rw [(synchronize_eq _ t.synchronizer digests target now).1]
              exact (Attended.lookUp digests (t.synchronizer, []) attended).2 digest entry pending
          | cleanup round =>
              by_cases past : entry.round + synchronizer.gcDepth ≤ round
              · exact .dropped rfl past
              · refine .stays ?_
                show HashMap.get (synchronizer.cleanup t.synchronizer round).pending digest = some entry
                unfold cleanup
                split_ifs with early
                · exact pending
                · exact HashMap.get_retain_eq_some_iff.mpr ⟨pending, by omega⟩
          | batchSilent => exact .stays pending
      | delivered number =>
          show Outcome synchronizer t
            { t with
              synchronizer := synchronizer.advance (readsOf t.store fails) t.synchronizer
                (.delivered number) } _ digest entry
          unfold Synchronizer.advance
          dsimp only
          cases ended : t.synchronizer.waiting.find? fun other => decide (other.1 = number) with
          | none => exact .stays pending
          | some w =>
              obtain ⟨number', other⟩ := w
              have inside := List.mem_of_find?_eq_some ended
              have same : number' = number := by simpa using List.find?_some ended
              by_cases here : digest = other
              · exact .stored (here ▸ admissible _ inside same)
              · refine .stays ?_
                show HashMap.get (HashMap.remove t.synchronizer.pending other) digest = some entry
                rw [HashMap.get_remove, if_neg here]
                exact pending
      | cancelled number => exact .stays pending
      | timer now shuffled => exact .stays ((pending_retry t.synchronizer now shuffled).symm ▸ pending)

/-! ## Runs -/

theorem attended_run {events : List Event}
    (admissible : Throughout (advance synchronizer) Admissible {} events) :
    Attended (run synchronizer events).failed (run synchronizer events).synchronizer := by
  refine admissible.invariant (fun t => Attended t.failed t.synchronizer) ?_
    fun t event => attended_advance
  exact ⟨.nil, fun _ inside => absurd inside List.not_mem_nil,
    fun digest _ found => nomatch (HashMap.get_empty digest).symm.trans found⟩

/-- What is in the store stays. -/
theorem stores_advance (stored : t.Stores digest) (event : Event) :
    (t.advance synchronizer event).Stores digest := by
  cases event with
  | write other batch =>
      show (HashMap.get (HashMap.insert t.store other batch) digest).isSome = true
      rw [HashMap.get_insert]
      split_ifs
      · rfl
      · exact stored
  | _ => exact stored

variable (synchronizer) in
/-- A batch is pending with this entry, and is asked for: it has its waiter, unless the read of the waiter
has failed, and when the delay has passed the timer sends a request for it to other workers. -/
structure Asks (t : Station) (digest : Digest) (entry : Pending) : Prop where
  pending : HashMap.get t.synchronizer.pending digest = some entry
  waiting : ((entry.waiter, digest) ∈ t.synchronizer.waiting ∧
    ∀ fails, ¬ t.Admissible (.task (.cancelled entry.waiter) fails)) ∨ entry.waiter ∈ t.failed
  retried : ∀ now shuffled, entry.timestamp + synchronizer.syncRetryDelay < now →
    ∃ missing, digest ∈ missing ∧ (synchronizer.retry t.synchronizer now shuffled).network =
      t.synchronizer.network ++ [(shuffled.take synchronizer.syncRetryNodes,
        .batchRequest missing synchronizer.name)]

theorem asks_of_pending (pending : HashMap.get t.synchronizer.pending digest = some entry)
    (attended : Attended t.failed t.synchronizer) : t.Asks synchronizer digest entry where
  pending := pending
  waiting := (attended.holding digest entry pending).imp_left fun waits =>
    ⟨waits, fun _ may => may (digest, entry) (HashMap.mem_items.mpr pending) rfl⟩
  retried _ shuffled late := retry_names pending late shuffled

/-- Where a batch is after a request, with the entry it had then: it is asked for, or stored, or a cleanup has
come that is past the round of the entry by the depth. -/
inductive Awaited (synchronizer : Synchronizer) (t : Station) (since : List Event) (digest : Digest)
    (entry : Pending) : Prop where
  | asks (asks : t.Asks synchronizer digest entry)
  | stored (stored : t.Stores digest)
  | dropped {round now : ℕ} {fails : Digest → Bool}
      (cleaned : .task (.primary (.cleanup round) now) fails ∈ since)
      (past : entry.round + synchronizer.gcDepth ≤ round)

/-- What was pending at a state is awaited after any run from it. -/
theorem awaited_foldl {since : List Event} (pending : HashMap.get t.synchronizer.pending digest = some entry)
    (attended : Attended t.failed t.synchronizer)
    (admissible : Throughout (advance synchronizer) Admissible t since) :
    Awaited synchronizer (since.foldl (advance synchronizer) t) since digest entry := by
  induction since generalizing t with
  | nil => exact .asks (asks_of_pending pending attended)
  | cons event since ih =>
      obtain ⟨may, rest⟩ := admissible
      cases outcome_advance pending attended may with
      | stays pending =>
          cases ih pending (attended_advance attended may) rest with
          | asks asks => exact .asks asks
          | stored stored => exact .stored stored
          | dropped cleaned past => exact .dropped (List.mem_cons_of_mem _ cleaned) past
      | stored stored =>
          have kept := (Throughout.of_forall (fun _ _ => trivial) _ :
            Throughout (advance synchronizer) (fun _ _ => True) _ since).invariant
            (fun t => t.Stores digest) stored fun t event stored _ => stores_advance stored event
          exact .stored kept
      | dropped cleans past => exact .dropped (List.mem_cons.mpr (.inl cleans.symm)) past

/-- The primary asks for batches. -/
abbrev request (digests : List Digest) (target : PublicKey) (now : ℕ) (fails : Digest → Bool) : Event :=
  .task (.primary (.synchronize digests target) now) fails

/-- **A batch that the primary asks for is awaited until it is stored.** In every run of the Synchronizer,
with any requests, cleanups, timers and writes of the store and any failures of reads, a batch that was in a
request of the primary and could be read then has an entry, and from then on it is asked for with this entry
until it is in the store or a cleanup has come that is past the round of the entry by the depth. -/
theorem awaited_until_stored {before after : List Event} {digests : List Digest} {target : PublicKey}
    {now : ℕ} {fails : Digest → Bool}
    (admissible : Throughout (advance synchronizer) Admissible {}
      (before ++ request digests target now fails :: after))
    (asked : digest ∈ digests) (readable : fails digest = false) :
    ∃ entry, HashMap.get (run synchronizer (before ++ [request digests target now fails])).synchronizer.pending
        digest = some entry ∧
      Awaited synchronizer (run synchronizer (before ++ request digests target now fails :: after)) after
        digest entry := by
  rw [List.append_cons before (request digests target now fails) after] at admissible ⊢
  obtain ⟨first, rest⟩ := Throughout.append_iff.mp admissible
  obtain ⟨entry, pending⟩ : ∃ entry, HashMap.get (run synchronizer
      (before ++ [request digests target now fails])).synchronizer.pending digest = some entry := by
    rw [run, List.foldl_append]
    refine pending_synchronize target asked fun e failed => ?_
    simp [readsOf, readable] at failed
  refine ⟨entry, pending, ?_⟩
  rw [run, List.foldl_append (l := before ++ _)]
  exact awaited_foldl pending (attended_run first) rest

/-! ## A batch that is asked for twice -/

/-- The Synchronizer of the first of four workers. -/
def ofFour : Synchronizer where
  name := ⟨1⟩
  id := 0
  committee := Dissemination.firstWorker.committee
  gcDepth := 50
  syncRetryDelay := 5000
  syncRetryNodes := 2

/-- The primary asks for a batch and moves on. -/
def askedOnce : List Event :=
  [request [⟨7⟩] ⟨2⟩ 0 fun _ => false, .task (.primary (.cleanup 60) 100) fun _ => false]

/-- The timer expires, the first waiter is cancelled, another batch arrives, and the second waiter fails. -/
def askedAgain : List Event :=
  [request [⟨8⟩] ⟨2⟩ 9000 fun _ => false,
    .task (.timer 10000 [⟨2, 3⟩, ⟨3, 3⟩, ⟨4, 3⟩]) fun _ => false,
    .task (.cancelled 0) fun _ => false, .write ⟨8⟩ [1], .task (.delivered 2) fun _ => false,
    .fail 1]

theorem awaited_until_stored_again :
    ∃ entry, HashMap.get (run ofFour (askedOnce ++
        [request [⟨7⟩, ⟨9⟩] ⟨3⟩ 200 fun d => decide (d = ⟨9⟩)])).synchronizer.pending ⟨7⟩ = some entry ∧
      Awaited ofFour (run ofFour (askedOnce ++
        request [⟨7⟩, ⟨9⟩] ⟨3⟩ 200 (fun d => decide (d = ⟨9⟩)) :: askedAgain)) askedAgain ⟨7⟩ entry :=
  awaited_until_stored (by decide +kernel) (by decide) rfl

end Station

end Tusk.Worker.Synchronizer
