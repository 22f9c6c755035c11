import MeowRs.FecRecovery

/-!
# Whole runs of the forward error correction

The log of a run says of every delivery what it returned.  Along guarded runs a delivery returns
nothing, or all the payloads of its generation that were not received, and the latter at most once.
-/

namespace MeowRs.Fec

open List Option State

open ActionRuns LittleEndian ShardedMaps

section Deliveries

variable {shards : Shards} {headerOffset : ℕ} {codecs : ℕ → ℕ → Codec}
  {state next : State shards headerOffset} {number : ℕ} {numbers : List ℕ}

/-- What a delivery changes: it leaves its number with the set, or it completes the set and brings out
the payloads that are missing. -/
structure Delivers (state next : State shards headerOffset) (number : ℕ) (numbers : List ℕ)
    (blobs : List Bytes) : Prop where
  log : next.log = (number, blobs) :: state.log
  filled : blobs ≠ [] → Filled shards (number / shards.size) (number :: received state.log)
  sent : next.sent = state.sent
  payloads : next.payloads = state.payloads
  tuned : Tuned next
  others : ∀ id, id ≠ shardId shards number → ∀ set, next.decoder.shardSet.lookup id = some set →
    state.decoder.shardSet.lookup id = some set
  result : (blobs = [] ∧ ∃ later, number ∈ later ∧ (∀ other ∈ numbers, other ∈ later) ∧
      ∀ set, next.decoder.shardSet.lookup (shardId shards number) = some set →
        Held next (shardId shards number) set (number / shards.size) later) ∨
    (∀ set, next.decoder.shardSet.lookup (shardId shards number) = some set → set = .empty) ∧
      Recovers state (number / shards.size)
        (missing shards (number / shards.size) (number :: received state.log)) blobs ∧
      (blobs = [] ∨
        (∀ entry ∈ state.log, entry.1 / shards.size = number / shards.size → entry.2 = []) ∧
        missing shards (number / shards.size) (received state.log) ≠ [])

theorem delivers_of_step
    (lawful : (codecs shards.data shards.parity).Lawful shards.data shards.parity)
    (sending : Sending (codecs shards.data shards.parity) state) (tuned : Tuned state)
    (spent : Spent shards state.log) (guarded : Guarded state (.deliver number))
    (held : Held state (shardId shards number) (state.shard number) (number / shards.size) numbers)
    (stepTo : step codecs state (.deliver number) = some next) :
    ∃ blobs, Delivers state next number numbers blobs := by
  obtain ⟨packet, blobs, sentHere, log, sent, payloads, tunedNext, decodes⟩ :=
    decodes_of_step sending tuned stepTo
  cases decodes with
  | duplicate seen sets =>
    refine ⟨[], log, absurd rfl, sent, payloads, tunedNext, fun _ _ _ lookup => sets ▸ lookup,
      .inl ⟨rfl, ?_⟩⟩
    obtain ⟨twin, member, ids⟩ := (held.seqids _).mp seen
    refine ⟨numbers, held.mem_of_mod rfl member ids, fun _ => id, fun set lookup => ?_⟩
    rw [sets] at lookup
    have same : state.shard number = set := by
      rw [shard, lookup]
      rfl
    rw [same] at held
    refine { held with
      sent := by rw [sent]; exact held.sent
      received := fun other listed => ?_
      latest := fun _ => ⟨_, latest_self log, rfl⟩ }
    rw [log]
    exact mem_cons_of_mem _ (held.received other listed)
  | one fresh few retains =>
    refine ⟨[], log, absurd rfl, sent, payloads, tunedNext, retains.others, .inl ⟨rfl, ?_⟩⟩
    refine ⟨numbers ++ [number], by simp, fun _ => mem_append_left _, fun set lookup => ?_⟩
    rw [retains.own set lookup]
    exact held.push sentHere fresh log sent few
  | last fresh enough retains =>
    obtain ⟨filled, result⟩ :=
      recovers_of_last lawful sending spent guarded held sentHere fresh enough rfl
    exact ⟨_, log, fun _ => filled, sent, payloads, tunedNext, retains.others,
      .inr ⟨retains.own, result⟩⟩

theorem Delivers.held {id generation : ℕ} {set : ShardSet} {numbers others : List ℕ}
    {blobs : List Bytes} (delivers : Delivers state next number numbers blobs)
    (elsewhere : id ≠ shardId shards number) (held : Held state id set generation others) :
    Held next id set generation others := by
  refine held.frame (fun _ _ sent => ?_) (fun entry listed => ?_)
    (latest_of_ne delivers.log elsewhere)
  · rw [delivers.sent, sent]
  · rw [delivers.log]
    exact mem_cons_of_mem _ listed

theorem Emits.held {payload : Bytes} {parities : List Bytes} {id generation : ℕ} {set : ShardSet}
    (sending : Sending (codecs shards.data shards.parity) state)
    (emits : Emits state next payload parities) (held : Held state id set generation numbers) :
    Held next id set generation numbers := by
  refine held.frame (emits.kept sending) (fun entry listed => ?_) ?_
  · rw [emits.log]
    exact listed
  · rw [latest, emits.log]
    rfl

theorem Holding.deliver {blobs : List Bytes} (holding : Holding state)
    (delivers : Delivers state next number numbers blobs) : Holding next where
  tuned := delivers.tuned
  sets id set lookup := by
    by_cases here : id = shardId shards number
    · subst here
      obtain ⟨_, later, _, _, held⟩ | ⟨empty, _⟩ := delivers.result
      · exact ⟨_, later, held set lookup⟩
      · rw [empty set lookup]
        exact ⟨0, [], held_empty⟩
    · obtain ⟨generation, numbers, held⟩ := holding.sets id set (delivers.others id here set lookup)
      exact ⟨generation, numbers, delivers.held here held⟩

theorem Holding.encode {buf : Bytes} {now rtoMs : ℕ}
    (sending : Sending (codecs shards.data shards.parity) state) (holding : Holding state)
    (stepTo : step codecs state (.encode buf now rtoMs) = some next) : Holding next := by
  obtain ⟨_, parities, emits, _⟩ := step_encode_eq_some stepTo
  refine ⟨⟨?_, ?_⟩, fun id set lookup => ?_⟩
  · rw [emits.decoder]
    exact holding.tuned.shards_eq
  · rw [emits.decoder]
    exact holding.tuned.untuned
  · rw [emits.decoder] at lookup
    obtain ⟨generation, numbers, held⟩ := holding.sets id set lookup
    exact ⟨generation, numbers, emits.held sending held⟩

end Deliveries

section Log

variable {shards : Shards} {headerOffset : ℕ} {state next : State shards headerOffset}
  {log : List (ℕ × List Bytes)} {generation : ℕ}

/-- Every delivery returned nothing, or, for the first time in its generation, the payloads that were
not received. -/
def Accounted (state : State shards headerOffset) : List (ℕ × List Bytes) → Prop
  | [] => True
  | (number, blobs) :: before =>
    (blobs = [] ∨
      Recovers state (number / shards.size)
        (missing shards (number / shards.size) (number :: received before)) blobs ∧
      ∀ entry ∈ before, entry.1 / shards.size = number / shards.size → entry.2 = []) ∧
    Accounted state before

/-- One delivery of the generation returned all the payloads that were not received, and no other
delivery of the generation returned anything. -/
def Completed (state : State shards headerOffset) (generation : ℕ) (log : List (ℕ × List Bytes)) :
    Prop :=
  ∃ after number blobs before, log = after ++ (number, blobs) :: before ∧
    number / shards.size = generation ∧
    Recovers state generation (missing shards generation (number :: received before)) blobs ∧
    ∀ entry ∈ after ++ before, entry.1 / shards.size = generation → entry.2 = []

section

variable (kept : ∀ number payload, state.payloads number = some payload → next.payloads number =
  some payload)
include kept

theorem Recovers.extend {places : List ℕ} {blobs : List Bytes}
    (recovers : Recovers state generation places blobs) : Recovers next generation places blobs :=
  recovers.imp fun _ _ ⟨payload, zeros, held, same⟩ => ⟨payload, zeros, kept _ payload held, same⟩

theorem Accounted.extend (accounted : Accounted state log) :
    Accounted next log := by
  induction log with
  | nil => trivial
  | cons entry log ih =>
    obtain ⟨here, before⟩ := accounted
    exact ⟨here.imp_right fun ⟨recovers, earlier⟩ => ⟨recovers.extend kept, earlier⟩, ih before⟩

theorem Completed.extend (completed : Completed state generation log) :
    Completed next generation log := by
  obtain ⟨after, number, blobs, before, split, same, recovers, others⟩ := completed
  exact ⟨after, number, blobs, before, split, same, recovers.extend kept, others⟩

end

theorem Accounted.append {after before : List (ℕ × List Bytes)}
    (accounted : Accounted state (after ++ before)) : Accounted state before := by
  induction after with
  | nil => exact accounted
  | cons _ _ ih => exact ih accounted.2

theorem Accounted.completed {entry : ℕ × List Bytes}
    (accounted : Accounted state log) (listed : entry ∈ log) (nonempty : entry.2 ≠ []) :
    Completed state (entry.1 / shards.size) log := by
  obtain ⟨after, before, rfl⟩ := append_of_mem listed
  obtain ⟨number, blobs⟩ := entry
  obtain ⟨recovers, earlier⟩ := accounted.append.1.resolve_left nonempty
  refine ⟨after, number, blobs, before, rfl, rfl, recovers, fun other member same => ?_⟩
  obtain later | member := mem_append.mp member
  · -- A later delivery that returned something would have found this one's generation silent.
    by_contra returned
    obtain ⟨latest, between, rfl⟩ := append_of_mem later
    rw [append_assoc, cons_append] at accounted
    have silent := (accounted.append.1.resolve_left returned).2 (number, blobs) (by simp) same.symm
    exact nonempty silent
  · exact earlier other member same

theorem Completed.cons {generation number : ℕ} {blobs : List Bytes}
    (completed : Completed state generation log)
    (silent : number / shards.size = generation → blobs = []) :
    Completed state generation ((number, blobs) :: log) := by
  obtain ⟨after, first, returned, before, rfl, same, recovers, others⟩ := completed
  refine ⟨(number, blobs) :: after, first, returned, before, rfl, same, recovers, ?_⟩
  intro entry member here
  obtain rfl | member := mem_cons.mp member
  · exact silent here
  · exact others entry member here

theorem Completed.missing_eq_nil (completed : Completed state generation log)
    (silent : ∀ entry ∈ log, entry.1 / shards.size = generation → entry.2 = []) :
    missing shards generation (received log) = [] := by
  obtain ⟨after, number, blobs, before, rfl, same, recovers, _⟩ := completed
  have nothing : blobs = [] := silent (number, blobs) (by simp) same
  rw [nothing] at recovers
  have none := forall₂_nil_right_iff.mp recovers
  rw [missing_eq_nil_iff] at none ⊢
  intro other data
  have listed := none other data
  simp only [received, map_append, map_cons, mem_append]
  exact .inr listed

end Log

section Runs

variable {shards : Shards} {headerOffset : ℕ} {codecs : ℕ → ℕ → Codec}
  {state next first last : State shards headerOffset} {number generation : ℕ} {blobs : List Bytes}
  {fed : ℕ → Prop}

theorem kept_payloads {buf : Bytes} {now rtoMs : ℕ}
    (sending : Sending (codecs shards.data shards.parity) state)
    (stepTo : step codecs state (.encode buf now rtoMs) = some next) (number : ℕ) (payload : Bytes)
    (held : state.payloads number = some payload) : next.payloads number = some payload := by
  obtain ⟨_, parities, emits, _⟩ := step_encode_eq_some stepTo
  have below := sending.sent_lt _ _ (sending.emitted number payload held).2
  rw [emits.payloads number (ne_of_lt below), held]

theorem kept_of_eq (payloads : next.payloads = state.payloads) (number : ℕ) (payload : Bytes)
    (held : state.payloads number = some payload) : next.payloads number = some payload := by
  rw [payloads, held]

/-- The whole invariant of the two ends. -/
structure Sound (codecs : ℕ → ℕ → Codec) (state : State shards headerOffset) : Prop where
  sending : Sending (codecs shards.data shards.parity) state
  holding : Holding state
  accounted : Accounted state state.log
  spent : Spent shards state.log

theorem sound_initial : Sound codecs (initial shards headerOffset) where
  sending := sending_initial
  holding := ⟨⟨rfl, rfl⟩, nofun⟩
  accounted := trivial
  spent := nofun

theorem Delivers.accounted {numbers : List ℕ}
    (delivers : Delivers state next number numbers blobs) (accounted : Accounted state state.log) :
    Accounted next next.log := by
  have kept := kept_of_eq delivers.payloads
  rw [delivers.log]
  refine ⟨?_, accounted.extend kept⟩
  obtain ⟨silent, _⟩ | ⟨_, recovers, silent | ⟨earlier, _⟩⟩ := delivers.result
  · exact .inl silent
  · exact .inl silent
  · exact .inr ⟨recovers.extend kept, earlier⟩

theorem Sound.step {action : Action}
    (lawful : (codecs shards.data shards.parity).Lawful shards.data shards.parity)
    (sound : Sound codecs state) (guarded : Guarded state action)
    (stepTo : Fec.step codecs state action = some next) : Sound codecs next := by
  obtain ⟨sending, holding, accounted, spent⟩ := sound
  cases action with
  | encode buf now rtoMs =>
    have kept := accounted.extend (kept_payloads sending stepTo)
    obtain ⟨_, parities, emits, _⟩ := step_encode_eq_some stepTo
    rw [← emits.log] at kept spent
    exact ⟨sending.encode lawful stepTo, holding.encode sending stepTo, kept, spent⟩
  | deliver number =>
    obtain ⟨numbers, held⟩ := holding.shard guarded
    obtain ⟨blobs, delivers⟩ :=
      delivers_of_step lawful sending holding.tuned spent guarded held stepTo
    refine ⟨sending.deliver stepTo, holding.deliver delivers, delivers.accounted accounted, ?_⟩
    rw [delivers.log]
    exact spent.cons delivers.filled

theorem Delivers.completed {numbers : List ℕ} (delivers : Delivers state next number numbers blobs)
    (completed : Completed state generation state.log) : Completed next generation next.log := by
  have kept := kept_of_eq delivers.payloads
  rw [delivers.log]
  refine (completed.extend kept).cons ?_
  rintro rfl
  obtain ⟨silent, _⟩ | ⟨_, _, silent | ⟨earlier, notAll⟩⟩ := delivers.result
  · exact silent
  · exact silent
  · exact absurd (completed.missing_eq_nil earlier) notAll

theorem completed_of_recovers (accounted : Accounted state state.log)
    (payloads : next.payloads = state.payloads) (log : next.log = (number, blobs) :: state.log)
    (recovers : Recovers state (number / shards.size)
      (missing shards (number / shards.size) (number :: received state.log)) blobs)
    (silent : blobs = [] ∨
      (∀ entry ∈ state.log, entry.1 / shards.size = number / shards.size → entry.2 = []) ∧
        missing shards (number / shards.size) (received state.log) ≠ []) :
    Completed next (number / shards.size) next.log := by
  have kept := kept_of_eq payloads
  rw [log]
  by_cases quiet : ∀ entry ∈ state.log, entry.1 / shards.size = number / shards.size → entry.2 = []
  · exact ⟨[], number, blobs, state.log, rfl, rfl, recovers.extend kept, quiet⟩
  · push Not at quiet
    obtain ⟨entry, listed, same, nonempty⟩ := quiet
    have completed := (accounted.completed listed nonempty).extend kept
    rw [same] at completed
    refine completed.cons fun _ => silent.resolve_right fun ⟨earlier, _⟩ => ?_
    exact nonempty (earlier entry listed same)

def Gathered (state : State shards headerOffset) (generation : ℕ) (fed : ℕ → Prop) : Prop :=
  Completed state generation state.log ∨
    ∃ numbers, (∀ number, fed number → number ∈ numbers) ∧
      ((∃ number, fed number) → ∃ set,
        state.decoder.shardSet.lookup (generation % shards.turn) = some set ∧
          Held state (generation % shards.turn) set generation numbers)

theorem Gathered.mono {fed fewer : ℕ → Prop} (gathered : Gathered state generation fed)
    (less : ∀ number, fewer number → fed number) : Gathered state generation fewer := by
  obtain completed | ⟨numbers, inside, held⟩ := gathered
  · exact .inl completed
  · exact .inr ⟨numbers, fun number here => inside number (less number here),
      fun ⟨number, here⟩ => held ⟨number, less number here⟩⟩

theorem shardId_eq (number : ℕ) : shardId shards number = number / shards.size % shards.turn :=
  shards.mod_paws_div_size number

theorem Gathered.encode {buf : Bytes} {now rtoMs : ℕ}
    (sending : Sending (codecs shards.data shards.parity) state)
    (gathered : Gathered state generation fed)
    (stepTo : Fec.step codecs state (.encode buf now rtoMs) = some next) :
    Gathered next generation fed := by
  have kept := kept_payloads sending stepTo
  obtain ⟨_, parities, emits, _⟩ := step_encode_eq_some stepTo
  obtain completed | ⟨numbers, inside, held⟩ := gathered
  · left
    rw [emits.log]
    exact completed.extend kept
  · refine .inr ⟨numbers, inside, fun some => ?_⟩
    obtain ⟨set, lookup, held⟩ := held some
    exact ⟨set, by rw [emits.decoder]; exact lookup, emits.held sending held⟩

section

variable (lawful : (codecs shards.data shards.parity).Lawful shards.data shards.parity)
include lawful

theorem Gathered.deliver (sound : Sound codecs state) (guarded : Guarded state (.deliver number))
    (gathered : Gathered state generation fed)
    (stepTo : Fec.step codecs state (.deliver number) = some next)
    (retained : next.decoder.shardSet.lookup (generation % shards.turn) ≠ none) :
    Gathered next generation fun other =>
      fed other ∨ (other = number ∧ number / shards.size = generation) := by
  obtain ⟨sending, holding, accounted, spent⟩ := sound
  obtain ⟨set, reached⟩ := ne_none_iff_exists'.mp retained
  obtain ⟨present, presentHeld⟩ := holding.shard guarded
  obtain ⟨blobs, delivers⟩ :=
    delivers_of_step lawful sending holding.tuned spent guarded presentHeld stepTo
  obtain completed | ⟨numbers, inside, held⟩ := gathered
  · exact .inl (delivers.completed completed)
  by_cases mine : number / shards.size = generation
  · -- The packet is of the generation: it joins the set, or completes it.
    have key : generation % shards.turn = shardId shards number := by
      rw [shardId_eq, mine]
    rw [key] at held reached
    obtain ⟨before, beforeHeld, beforeInside⟩ : ∃ before,
        Held state (shardId shards number) (state.shard number) (number / shards.size) before ∧
          ∀ other, fed other → other ∈ before := by
      by_cases some : ∃ other, fed other
      · obtain ⟨set, lookup, heldSet⟩ := held some
        refine ⟨numbers, ?_, inside⟩
        rw [shard, lookup, mine]
        exact heldSet
      · exact ⟨present, presentHeld, fun other here => absurd ⟨other, here⟩ some⟩
    obtain ⟨blobs, delivers⟩ :=
      delivers_of_step lawful sending holding.tuned spent guarded beforeHeld stepTo
    obtain ⟨_, later, joined, kept, heldLater⟩ | ⟨_, recovers, silent⟩ := delivers.result
    · refine .inr ⟨later, ?_, fun _ => ⟨set, by rw [key]; exact reached, ?_⟩⟩
      · rintro other (here | ⟨rfl, _⟩)
        · exact kept other (beforeInside other here)
        · exact joined
      · rw [key, ← mine]
        exact heldLater set reached
    · left
      rw [← mine]
      exact completed_of_recovers accounted delivers.payloads delivers.log recovers silent
  · have nothingNew : ∀ other, (fed other ∨ other = number ∧ number / shards.size = generation) →
        fed other := fun other here => here.resolve_right fun same => mine same.2
    refine Gathered.mono ?_ nothingNew
    by_cases some : ∃ other, fed other
    · obtain ⟨held_set, lookup, heldSet⟩ := held some
      obtain ⟨other, here⟩ := some
      have nonempty : numbers ≠ [] := ne_nil_of_mem (inside other here)
      by_cases key : generation % shards.turn = shardId shards number
      · -- Another generation's packet with the same id is kept away from the set.
        obtain ⟨entry, latest, entry_eq⟩ := heldSet.latest nonempty
        rw [key] at latest lookup
        have packets : (state.shard number).packets ≠ [] := by
          rw [shard, lookup]
          intro empty
          have lengths := heldSet.sent.length_eq
          rw [show held_set.packets = [] from empty] at lengths
          exact nonempty (length_eq_zero_iff.mp lengths)
        exact absurd ((guarded.1 packets entry latest).symm.trans entry_eq) mine
      · have same := delivers.others _ key set reached
        rw [lookup] at same
        cases same
        exact .inr ⟨numbers, inside, fun _ => ⟨set, reached, delivers.held key heldSet⟩⟩
    · exact .inr ⟨[], fun other here => absurd ⟨other, here⟩ some, fun here => absurd here some⟩

theorem gathered_of_run {actions : List Action}
    (sound : Sound codecs first) (meets : Meets (step codecs) Guarded first actions)
    (runs : run (step codecs) first actions = some last) (gathered : Gathered first generation fed)
    (retained : ∀ early late middle, actions = early ++ late → early ≠ [] →
      run (step codecs) first early = some middle →
      middle.decoder.shardSet.lookup (generation % shards.turn) ≠ none) :
    Gathered last generation fun number =>
      fed number ∨ (.deliver number ∈ actions ∧ number / shards.size = generation) := by
  induction actions generalizing first fed with
  | nil =>
    cases runs
    refine gathered.mono ?_
    rintro number (here | ⟨absent, _⟩)
    · exact here
    · exact absurd absent not_mem_nil
  | cons action actions ih =>
    obtain ⟨next, stepTo, rest⟩ := run_cons_eq_some runs
    have after := sound.step lawful meets.1 stepTo
    have later : ∀ early late middle, actions = early ++ late → early ≠ [] →
        run (step codecs) next early = some middle →
        middle.decoder.shardSet.lookup (generation % shards.turn) ≠ none := by
      rintro early late middle rfl _ reaches
      apply retained (action :: early) late middle rfl (cons_ne_nil _ _)
      simp only [run, stepTo, bind_some]
      exact reaches
    cases action with
    | encode buf now rtoMs =>
      refine (ih after (meets.2 next stepTo) rest (gathered.encode sound.sending stepTo)
        later).mono ?_
      rintro number (here | ⟨listed, same⟩)
      · exact .inl here
      · exact .inr ⟨(mem_cons.mp listed).resolve_left (by simp), same⟩
    | deliver fedNow =>
      have here := retained [.deliver fedNow] actions next rfl (by simp)
        (by simp only [run, stepTo, bind_some])
      refine (ih after (meets.2 next stepTo) rest
        (gathered.deliver lawful sound meets.1 stepTo here) later).mono ?_
      rintro number (old | ⟨listed, same⟩)
      · exact .inl (.inl old)
      · obtain now | listed := mem_cons.mp listed
        · cases now
          exact .inl (.inr ⟨rfl, same⟩)
        · exact .inr ⟨listed, same⟩

theorem sound_of_run {actions : List Action}
    (sound : Sound codecs first) (meets : Meets (step codecs) Guarded first actions)
    (runs : run (step codecs) first actions = some last) : Sound codecs last :=
  invariant_of_meets (fun _ _ _ sound guarded stepTo => Sound.step lawful sound guarded stepTo) sound
    meets runs

end

/-- While a set that needs parity is drained with all that was fed of its generation, and no two
generations share a set, the decoder returns only payloads that it did not receive, and all that are
missing from a generation of which enough packets arrive. -/
theorem fec_recovers_of_guarded (shards : Shards) (headerOffset : ℕ) (codecs : ℕ → ℕ → Codec)
    (lawful : (codecs shards.data shards.parity).Lawful shards.data shards.parity)
    (early late : List Action) (first last : State shards headerOffset)
    (guarded : Meets (step codecs) Guarded (initial shards headerOffset) (early ++ late))
    (reaches : run (step codecs) (initial shards headerOffset) early = some first)
    (ends : run (step codecs) first late = some last) :
    (∀ after number blobs before, last.log = after ++ (number, blobs) :: before → ∀ blob ∈ blobs,
      ∃ other payload zeros, other % shards.size < shards.data ∧
        last.sent other = some (FecEncoder.dataWire (other % shards.paws) payload) ∧
        other ∉ number :: received before ∧
        blob = lengthPrefixed payload ++ replicate zeros 0) ∧
      ∀ generation,
        (∀ between rest middle, late = between ++ rest → between ≠ [] →
          run (step codecs) first between = some middle →
          middle.decoder.shardSet.lookup (generation % shards.turn) ≠ none) →
        (∃ numbers : List ℕ, numbers.Nodup ∧ numbers.length = shards.data ∧
          ∀ number ∈ numbers, number / shards.size = generation ∧ .deliver number ∈ late) →
        Completed last generation last.log := by
  have middle := sound_of_run lawful sound_initial (meets_of_append guarded) reaches
  have later := meets_of_run_append guarded reaches
  have sound := sound_of_run lawful middle later ends
  constructor
  · intro after number blobs before split blob listed
    have accounted := sound.accounted
    rw [split] at accounted
    obtain ⟨recovers, _⟩ := accounted.append.1.resolve_left (ne_nil_of_mem listed)
    obtain ⟨place, missed, payload, zeros, held, same⟩ := exists_left_of_mem recovers listed
    obtain ⟨isData, sent⟩ := sound.sending.emitted _ payload held
    refine ⟨_, payload, zeros, isData, sent, ?_, same⟩
    simpa using (mem_filter.mp missed).2
  · rintro generation retained ⟨numbers, nodup, length, fed⟩
    have start : Gathered first generation fun _ => False :=
      .inr ⟨[], fun _ absent => absurd absent id, fun ⟨_, absent⟩ => absurd absent id⟩
    have gathered := gathered_of_run lawful middle later ends start retained
    obtain completed | ⟨all, inside, held⟩ := gathered
    · exact completed
    · -- As many packets as there are data rows do not fit into a set that was not drained.
      have inAll : ∀ number ∈ numbers, number ∈ all := fun number member =>
        inside number (.inr ⟨(fed number member).2, (fed number member).1⟩)
      have some : ∃ number, number ∈ numbers :=
        exists_mem_of_length_pos (by rw [length]; exact shards.data_pos)
      obtain ⟨number, member⟩ := some
      obtain ⟨_, _, heldSet⟩ := held ⟨number, .inr ⟨(fed number member).2, (fed number member).1⟩⟩
      have bound := (subperm_of_subset nodup inAll).length_le
      have few := heldSet.few
      omega

end Runs

section OnePlusOne

def mirror : Codec where
  encode := some
  reconstructData
    | [some row, copy] => some [some row, copy]
    | [none, some row] => some [some row, some row]
    | _ => none

theorem mirror_lawful : mirror.Lawful 1 1 where
  encodes rows width length _ wide := ⟨rows, rfl, length, wide⟩
  reconstructs rows parities shards present length encoded total exact nodup enough filled := by
    obtain ⟨row, rfl⟩ := length_eq_one_iff.mp length
    cases encoded
    obtain ⟨data, copy, rfl⟩ := length_eq_two.mp total
    have first : ∀ found, data = some found → found = row := by
      rintro found rfl
      exact (some.inj (exact 0 found rfl)).symm
    have second : ∀ found, copy = some found → found = row := by
      rintro found rfl
      exact (some.inj (exact 1 found rfl)).symm
    have one : ∀ (index : ℕ) (found : Bytes), [row][index]? = some found →
        index = 0 ∧ found = row := by
      intro index found here
      cases index with
      | zero => exact ⟨rfl, (some.inj here).symm⟩
      | succ index => simp at here
    cases data with
    | some found =>
      cases first found rfl
      refine ⟨_, rfl, rfl, fun index other here => ?_⟩
      obtain ⟨rfl, rfl⟩ := one index other here
      rfl
    | none =>
      cases copy with
      | some found =>
        cases second found rfl
        refine ⟨_, rfl, rfl, fun index other here => ?_⟩
        obtain ⟨rfl, rfl⟩ := one index other here
        rfl
      | none =>
        obtain ⟨index, listed⟩ := exists_mem_of_length_pos enough
        obtain ⟨found, here⟩ := filled index listed
        rcases index with _ | _ | index <;> simp at here

def onePlusOne : Shards :=
  ⟨1, 1, by decide, by decide, by decide⟩

def frame (byte : UInt8) : Bytes :=
  replicate 8 0 ++ [byte]

/-- Two data packets, numbers 0 and 2; the second comes soon enough for its parity, number 3. -/
def twoPackets : List Action :=
  [.encode (frame 7) 0 1000, .encode (frame 9) 1 1000]

def mirrors : ℕ → ℕ → Codec :=
  fun _ _ => mirror

theorem guarded_lost_data :
    Meets (step mirrors) Guarded (initial onePlusOne 0) (twoPackets ++ [.deliver 3]) := by
  refine ⟨trivial, fun second stepTo => ⟨trivial, fun third laterTo => ⟨?_, fun _ _ => trivial⟩⟩⟩
  obtain ⟨_, _, first, _⟩ := step_encode_eq_some stepTo
  obtain ⟨_, _, later, _⟩ := step_encode_eq_some laterTo
  have log : third.log = [] := later.log.trans first.log
  have decoder : third.decoder = .new onePlusOne := later.decoder.trans first.decoder
  constructor
  · intro nonempty
    rw [shard, decoder] at nonempty
    exact absurd rfl nonempty
  · rw [log]
    intro _ _ _ entry listed
    exact absurd listed not_mem_nil

/-- The data packet is lost and comes back from its parity. -/
theorem fec_recovers_of_guarded_lost_data :
    ∃ first last : State onePlusOne 0,
      run (step mirrors) (initial onePlusOne 0) twoPackets = some first ∧
        run (step mirrors) first [.deliver 3] = some last ∧ Completed last 1 last.log := by
  have whole : ((run (step mirrors) (initial onePlusOne 0) twoPackets).bind fun first =>
      run (step mirrors) first [.deliver 3]).isSome = true ∧
      (((run (step mirrors) (initial onePlusOne 0) twoPackets).bind fun first =>
        run (step mirrors) first [.deliver 3]).map fun last =>
          (last.decoder.shardSet.lookup (1 % onePlusOne.turn)).isSome) = some true := by
    decide +kernel
  obtain ⟨last, both⟩ := isSome_iff_exists.mp whole.1
  obtain ⟨first, reaches, ends⟩ := bind_eq_some_iff.mp both
  refine ⟨first, last, reaches, ends, ?_⟩
  have recovers := fec_recovers_of_guarded onePlusOne 0 mirrors mirror_lawful twoPackets [.deliver 3]
    first last guarded_lost_data reaches ends
  apply recovers.2 1
  · intro between rest middle split nonempty reached
    have all : between = [.deliver 3] := by
      cases between with
      | nil => exact absurd rfl nonempty
      | cons action between =>
        simp only [cons_append, cons.injEq] at split
        rw [← split.1, (append_eq_nil_iff.mp split.2.symm).1]
    rw [all, ends] at reached
    cases reached
    have retained := whole.2
    rw [both] at retained
    exact isSome_iff_ne_none.mp (some.inj retained)
  · refine ⟨[3], nodup_singleton 3, rfl, fun number member => ?_⟩
    cases mem_singleton.mp member
    exact ⟨rfl, mem_singleton.mpr rfl⟩

theorem sending_of_run {actions : List Action} {last : State onePlusOne 0}
    (runs : run (step mirrors) (initial onePlusOne 0) actions = some last) :
    Sending mirror last := by
  refine @invariant_of_run _ _ (step mirrors) (Sending mirror) ?_ _ _ _ sending_initial runs
  intro state action next sending stepTo
  cases action with
  | encode buf now rtoMs => exact Sending.encode mirror_lawful sending stepTo
  | deliver number => exact sending.deliver stepTo

/-- Nothing is lost, and yet the parity packet brings out the payload of the data packet that was
received before it: no other data packet has that payload. -/
theorem parity_returns_received_payload :
    ∃ last : State onePlusOne 0,
      run (step mirrors) (initial onePlusOne 0)
        (twoPackets ++ [.deliver 0, .deliver 2, .deliver 3]) = some last ∧
        last.log = [(3, [[3, 0, 9]]), (2, []), (0, [])] ∧
        ¬∃ other payload zeros, other % onePlusOne.size < onePlusOne.data ∧
          last.sent other = some (FecEncoder.dataWire (other % onePlusOne.paws) payload) ∧
          other ∉ [3, 2, 0] ∧
          [3, 0, 9] = lengthPrefixed payload ++ replicate zeros 0 := by
  have facts : ((run (step mirrors) (initial onePlusOne 0)
      (twoPackets ++ [.deliver 0, .deliver 2, .deliver 3])).map fun last =>
        (last.log, last.total)) = some ([(3, [[3, 0, 9]]), (2, []), (0, [])], 4) := by
    decide +kernel
  obtain ⟨last, runs, same⟩ := map_eq_some_iff.mp facts
  obtain ⟨log, total⟩ := Prod.mk.inj same
  refine ⟨last, runs, log, ?_⟩
  rintro ⟨other, payload, zeros, isData, sent, unseen, _⟩
  have below := (sending_of_run runs).sent_lt other _ sent
  have even : other % 2 < 1 := isData
  simp only [mem_cons, not_mem_nil, or_false, not_or] at unseen
  omega

end OnePlusOne

end MeowRs.Fec
