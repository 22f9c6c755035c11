import MeowRs.SimpleRules

/-!
# Building IP range sets

`IpRangeSetBuilder` keeps a list of address intervals for each family and folds a new network into
the last one when they touch; `build` sorts what is left and merges again.  However the networks
were ordered, the result is the one table of separated intervals that holds their addresses.
-/

namespace MeowRs

open List Intervals

namespace IntervalTable

/-- `checked_add(1)` on a number of `bits` bits. -/
def checkedNext (bits value : Nat) : Option Nat :=
  if value + 1 < 2 ^ bits then some (value + 1) else none

def push (table : IntervalTable) (range : Nat × Nat) : IntervalTable where
  starts := table.starts ++ [range.1]
  ends := table.ends ++ [range.2]

/-- One turn of the loop in `from_unsorted`. -/
def coalesce (next : Nat → Option Nat) (table : IntervalTable) (range : Nat × Nat) :
    IntervalTable :=
  match table.ends.getLast? with
  | some lastEnd =>
    if range.1 ≤ lastEnd ∨ next lastEnd = some range.1 then
      if lastEnd < range.2 then { table with ends := table.ends.dropLast ++ [range.2] } else table
    else table.push range
  | none => table.push range

def fromUnsorted (next : Nat → Option Nat) (ranges : List (Nat × Nat)) : IntervalTable :=
  (ranges.insertionSort spanLe).foldl (coalesce next) ⟨[], []⟩

def covers (table : IntervalTable) (start stop : Nat) : Bool :=
  let index := partitionPoint (· ≤ start) table.starts
  0 < index && (table.ends[index - 1]?).any (stop ≤ ·)

def intervals (table : IntervalTable) : List (Nat × Nat) :=
  table.starts.zip table.ends

/-- As many ends as starts, and the intervals are sorted, disjoint and not even adjacent. -/
structure Separated (table : IntervalTable) : Prop where
  lengths : table.starts.length = table.ends.length
  ordered : ∀ interval ∈ table.intervals, interval.1 ≤ interval.2
  apart : table.intervals.Pairwise fun interval later => interval.2 + 1 < later.1

def ofIntervals (intervals : List (Nat × Nat)) : IntervalTable where
  starts := intervals.map Prod.fst
  ends := intervals.map Prod.snd

@[simp]
theorem intervals_ofIntervals (intervals : List (Nat × Nat)) :
    (ofIntervals intervals).intervals = intervals :=
  (zip_of_prod rfl rfl).symm

theorem sorted_iff {intervals : List (Nat × Nat)} :
    Intervals.Sorted natNext intervals ↔
      (∀ interval ∈ intervals, interval.1 ≤ interval.2) ∧
        intervals.Pairwise fun interval later => interval.2 + 1 < later.1 := by
  have before : ∀ interval later : Nat × Nat,
      endsBefore natNext later.1 interval = true ↔
        interval.2 + 1 < later.1 := by
    simp [endsBefore, natNext]
  constructor
  · rintro ⟨ordered, apart⟩
    exact ⟨ordered, apart.imp fun before' => (before _ _).mp before'⟩
  · rintro ⟨ordered, apart⟩
    exact ⟨ordered, apart.imp fun before' => (before _ _).mpr before'⟩

theorem covers_ofIntervals (intervals : List (Nat × Nat)) (start stop : Nat) :
    (ofIntervals intervals).covers start stop = Intervals.covers intervals start stop := by
  have point : Intervals.partitionPoint (· ≤ start) (ofIntervals intervals).starts =
      partitionPoint (·.1 ≤ start) intervals := by
    rw [partitionPoint, ofIntervals, takeWhile_map, length_map]
    rfl
  unfold covers Intervals.covers
  rw [point]
  simp only [ofIntervals, getElem?_map]
  cases intervals[partitionPoint (·.1 ≤ start) intervals - 1]? with
  | none => exact Bool.and_false _
  | some interval => rfl

theorem contains_eq_covers (table : IntervalTable) (addr : Nat) :
    table.contains addr = table.covers addr addr :=
  rfl

section FromUnsorted

variable {bits : Nat} {table : IntervalTable}

theorem checkedNext_eq_iff {value after : Nat} (fits : after < 2 ^ bits) :
    checkedNext bits value = some after ↔ after = value + 1 := by
  unfold checkedNext
  split
  · rw [Option.some.injEq]
    exact eq_comm
  · constructor
    · nofun
    · omega

theorem foldl_coalesce {done : List (Nat × Nat)} {last : Nat × Nat} {ranges : List (Nat × Nat)}
    (fits : ∀ range ∈ ranges, range.1 < 2 ^ bits) :
    ranges.foldl (coalesce (checkedNext bits)) (ofIntervals (done ++ [last])) =
      ofIntervals (done ++ mergeInto last ranges) := by
  induction ranges generalizing done last with
  | nil => rfl
  | cons range ranges ih =>
    obtain ⟨rangeFits, restFits⟩ := forall_mem_cons.mp fits
    have lastEnd : (ofIntervals (done ++ [last])).ends.getLast? = some last.2 := by
      simp [ofIntervals]
    have touches : range.1 ≤ last.2 ∨ checkedNext bits last.2 = some range.1 ↔
        range.1 ≤ last.2 + 1 := by
      rw [checkedNext_eq_iff rangeFits]
      omega
    rw [foldl_cons, coalesce, lastEnd, mergeInto]
    simp only [touches]
    split
    · rw [← ih restFits]
      split
      · rename_i longer
        rw [Nat.max_eq_right longer.le]
        simp [ofIntervals]
      · rename_i shorter
        rw [Nat.max_eq_left (le_of_not_gt shorter)]
    · have pushed : (ofIntervals (done ++ [last])).push range =
          ofIntervals ((done ++ [last]) ++ [range]) := by
        simp [ofIntervals, push]
      rw [pushed, ih restFits, append_assoc]
      rfl

theorem fromUnsorted_eq {ranges : List (Nat × Nat)} (fits : ∀ range ∈ ranges, range.1 < 2 ^ bits) :
    fromUnsorted (checkedNext bits) ranges =
      ofIntervals (mergeSpans (ranges.insertionSort spanLe)) := by
  have perm := perm_insertionSort spanLe ranges
  have sortedFits : ∀ range ∈ ranges.insertionSort spanLe, range.1 < 2 ^ bits :=
    fun range member => fits range (perm.mem_iff.mp member)
  unfold fromUnsorted
  cases shape : ranges.insertionSort spanLe with
  | nil => rfl
  | cons first rest =>
    rw [shape] at sortedFits
    exact @foldl_coalesce bits [] first rest (forall_mem_cons.mp sortedFits).2

/-- A set of ranges is tabled without loss: the table is separated and holds the same values. -/
theorem fromUnsorted_spec {ranges : List (Nat × Nat)}
    (fits : ∀ range ∈ ranges, range.1 ≤ range.2 ∧ range.2 < 2 ^ bits) :
    Separated (fromUnsorted (checkedNext bits) ranges) ∧
      ∀ value, Intervals.Member (fromUnsorted (checkedNext bits) ranges).intervals value ↔
        Intervals.Member ranges value := by
  have startsFit : ∀ range ∈ ranges, range.1 < 2 ^ bits := fun range member =>
    (fits range member).1.trans_lt (fits range member).2
  have sorted := sorted_iff.mp (sorted_merge fun range member => (fits range member).1)
  rw [fromUnsorted_eq startsFit]
  refine ⟨⟨by simp [ofIntervals], ?_, ?_⟩, fun value => ?_⟩
  · rw [intervals_ofIntervals]
    exact sorted.1
  · rw [intervals_ofIntervals]
    exact sorted.2
  · rw [intervals_ofIntervals, ← spansContain_iff, spansContain_merge,
      spansContain_iff]

theorem Separated.ofIntervals_intervals (separated : Separated table) :
    ofIntervals table.intervals = table := by
  obtain ⟨starts, ends⟩ := table
  have lengths : starts.length = ends.length := separated.lengths
  simp [ofIntervals, intervals, map_fst_zip lengths.le, map_snd_zip lengths.ge]

theorem Separated.covers_iff (separated : Separated table) {start stop : Nat} (le : start ≤ stop) :
    table.covers start stop = true ↔
      ∀ value, start ≤ value → value ≤ stop → Intervals.Member table.intervals value := by
  rw [← separated.ofIntervals_intervals, covers_ofIntervals, intervals_ofIntervals]
  exact (sorted_iff.mpr ⟨separated.ordered, separated.apart⟩).covers_iff
    isNext_natNext le

theorem Separated.contains_iff (separated : Separated table)
    {value : Nat} : table.contains value = true ↔ Intervals.Member table.intervals value := by
  rw [contains_eq_covers, separated.covers_iff (le_refl value)]
  constructor
  · exact fun members => members value (le_refl _) (le_refl _)
  · intro member other above below
    rwa [← le_antisymm above below]

/-- Separated tables that hold the same values are the same table. -/
theorem Separated.eq_of_member_iff {table other : IntervalTable} (separated : Separated table)
    (otherSeparated : Separated other) (same : ∀ value, Intervals.Member table.intervals value ↔
      Intervals.Member other.intervals value) : table = other := by
  rw [← separated.ofIntervals_intervals, ← otherSeparated.ofIntervals_intervals]
  congr 1
  exact Intervals.Sorted.eq_of_member_iff isNext_natNext
    (sorted_iff.mpr ⟨separated.ordered, separated.apart⟩)
    (sorted_iff.mpr ⟨otherSeparated.ordered, otherSeparated.apart⟩) same

end FromUnsorted

end IntervalTable

/-- Append an interval, or fold it into the last one when it touches that one from above. -/
def pushMerging (pending : List (Nat × Nat)) (start stop : Nat) (next : Nat → Option Nat) :
    List (Nat × Nat) :=
  match pending.getLast? with
  | some last =>
    if last.1 ≤ start ∧ (start ≤ last.2 ∨ next last.2 = some start) then
      if last.2 < stop then pending.dropLast ++ [(last.1, stop)] else pending
    else pending ++ [(start, stop)]
  | none => pending ++ [(start, stop)]

structure IpRangeSetBuilder where
  v4 : List (Nat × Nat)
  v6 : List (Nat × Nat)

namespace IpRangeSetBuilder

def new : IpRangeSetBuilder :=
  ⟨[], []⟩

def add (builder : IpRangeSetBuilder) (net : IpNet) : IpRangeSetBuilder :=
  let start := net.network.toNat
  let stop := net.broadcast.toNat
  match net.family with
  | .v4 => { builder with v4 := pushMerging builder.v4 start stop (IntervalTable.checkedNext 32) }
  | .v6 => { builder with v6 := pushMerging builder.v6 start stop (IntervalTable.checkedNext 128) }

def build (builder : IpRangeSetBuilder) : IpRangeSet where
  v4 := IntervalTable.fromUnsorted (IntervalTable.checkedNext 32) builder.v4
  v6 := IntervalTable.fromUnsorted (IntervalTable.checkedNext 128) builder.v6

def pending (builder : IpRangeSetBuilder) : Family → List (Nat × Nat)
  | .v4 => builder.v4
  | .v6 => builder.v6

end IpRangeSetBuilder

namespace IpRangeSet

def fromNets (nets : List IpNet) : IpRangeSet :=
  (nets.foldl IpRangeSetBuilder.add IpRangeSetBuilder.new).build

def covers (ranges : IpRangeSet) (net : IpNet) : Bool :=
  match net.family with
  | .v4 => ranges.v4.covers net.network.toNat net.broadcast.toNat
  | .v6 => ranges.v6.covers net.network.toNat net.broadcast.toNat

def table (ranges : IpRangeSet) : Family → IntervalTable
  | .v4 => ranges.v4
  | .v6 => ranges.v6

end IpRangeSet

section PushMerging

variable {bits : Nat} {pending : List (Nat × Nat)} {start stop : Nat}

theorem member_pushMerging (fits : start < 2 ^ bits) {value : Nat} :
    Intervals.Member (pushMerging pending start stop (IntervalTable.checkedNext bits)) value ↔
      Intervals.Member pending value ∨ start ≤ value ∧ value ≤ stop := by
  have single : ∀ interval : Nat × Nat, Intervals.Member [interval] value ↔
      interval.1 ≤ value ∧ value ≤ interval.2 := by
    simp [Intervals.Member]
  unfold pushMerging
  split
  · rename_i last isLast
    obtain ⟨before, rfl⟩ := getLast?_eq_some_iff.mp isLast
    simp only [IntervalTable.checkedNext_eq_iff fits]
    split
    · split
      · rw [dropLast_concat, member_append, member_append, single, single,
          or_assoc]
        apply or_congr_right
        omega
      · rw [member_append, single, or_assoc]
        apply or_congr_right
        omega
    · rw [member_append, single]
  · rw [member_append, single]

theorem of_mem_pushMerging {next : Nat → Option Nat}
    (ordered : ∀ range ∈ pending, range.1 ≤ range.2 ∧ range.2 < 2 ^ bits)
    (le : start ≤ stop) (fits : stop < 2 ^ bits) {range : Nat × Nat}
    (member : range ∈ pushMerging pending start stop next) :
    range.1 ≤ range.2 ∧ range.2 < 2 ^ bits := by
  have appended : range ∈ pending ++ [(start, stop)] → range.1 ≤ range.2 ∧ range.2 < 2 ^ bits := by
    intro inAppended
    rcases mem_append.mp inAppended with inPending | isNew
    · exact ordered range inPending
    · obtain rfl := mem_singleton.mp isNew
      exact ⟨le, fits⟩
  unfold pushMerging at member
  split at member
  · rename_i last isLast
    have lastIn : last ∈ pending := mem_of_getLast? isLast
    split at member
    · split at member
      · rcases mem_append.mp member with inBefore | isMerged
        · exact ordered range (mem_of_mem_dropLast inBefore)
        · obtain rfl := mem_singleton.mp isMerged
          exact ⟨by dsimp only; omega, fits⟩
      · exact ordered range member
    · exact appended member
  · exact appended member

end PushMerging

namespace IpRangeSetBuilder

/-- The builder holds exactly the addresses of the networks, in intervals of each family. -/
structure Holds (nets : List IpNet) (builder : IpRangeSetBuilder) : Prop where
  fits : ∀ family, ∀ range ∈ builder.pending family, range.1 ≤ range.2 ∧ range.2 < 2 ^ family.bits
  member : ∀ family value, Intervals.Member (builder.pending family) value ↔
    ∃ net ∈ nets, net.family = family ∧ net.network.toNat ≤ value ∧ value ≤ net.broadcast.toNat

theorem pending_add (builder : IpRangeSetBuilder) (net : IpNet) (family : Family) :
    (builder.add net).pending family =
      if net.family = family then
        pushMerging (builder.pending family) net.network.toNat net.broadcast.toNat
          (IntervalTable.checkedNext family.bits)
      else builder.pending family := by
  unfold add
  cases netFamily : net.family <;> cases family <;> rfl

theorem Holds.add {nets : List IpNet} {builder : IpRangeSetBuilder} (holds : Holds nets builder)
    (net : IpNet) : Holds (nets ++ [net]) (builder.add net) := by
  have broadcastFits : net.broadcast.toNat < 2 ^ net.family.bits := by
    have := net.broadcast.toNat_lt
    rwa [IpNet.family_broadcast] at this
  have ordered := net.network_le_broadcast
  constructor
  · intro family range member
    rw [pending_add] at member
    split at member
    · rename_i sameFamily
      rw [sameFamily] at broadcastFits
      exact of_mem_pushMerging (holds.fits family) ordered broadcastFits member
    · exact holds.fits family range member
  · intro family value
    simp only [mem_append, mem_singleton, or_and_right, exists_or, exists_eq_left]
    rw [← holds.member family value, pending_add]
    split
    · rename_i sameFamily
      rw [sameFamily] at broadcastFits
      rw [member_pushMerging (ordered.trans_lt broadcastFits)]
      simp [sameFamily]
    · rename_i otherFamily
      simp [otherFamily]

theorem holds_foldl (nets : List IpNet) : Holds nets (nets.foldl add new) := by
  induction nets using reverseRecOn with
  | nil =>
    constructor
    · intro family range member
      cases family <;> exact absurd member not_mem_nil
    · intro family value
      cases family <;> simp [new, pending, Intervals.Member]
  | append_singleton nets net ih =>
    rw [foldl_concat]
    exact ih.add net

end IpRangeSetBuilder

namespace IpRangeSet

theorem table_fromNets (nets : List IpNet) (family : Family) :
    (fromNets nets).table family = IntervalTable.fromUnsorted (IntervalTable.checkedNext family.bits)
      ((nets.foldl IpRangeSetBuilder.add IpRangeSetBuilder.new).pending family) := by
  cases family <;> rfl

theorem separated_table (nets : List IpNet) (family : Family) :
    ((fromNets nets).table family).Separated := by
  rw [table_fromNets]
  exact (IntervalTable.fromUnsorted_spec
    ((IpRangeSetBuilder.holds_foldl nets).fits family)).1

theorem member_table {nets : List IpNet} {family : Family} {value : Nat} :
    Intervals.Member ((fromNets nets).table family).intervals value ↔
      ∃ net ∈ nets, net.family = family ∧ net.network.toNat ≤ value ∧
        value ≤ net.broadcast.toNat := by
  have holds := IpRangeSetBuilder.holds_foldl nets
  rw [table_fromNets, (IntervalTable.fromUnsorted_spec (holds.fits family)).2]
  exact holds.member family value

theorem contains_eq_table (ranges : IpRangeSet) (ip : IpAddr) :
    ranges.contains ip = (ranges.table ip.family).contains ip.toNat := by
  cases ip <;> rfl

theorem covers_eq_table (ranges : IpRangeSet) (net : IpNet) :
    ranges.covers net =
      (ranges.table net.family).covers net.network.toNat net.broadcast.toNat := by
  unfold covers
  cases net.family <;> rfl

theorem contains_fromNets {nets : List IpNet} {ip : IpAddr} :
    (fromNets nets).contains ip = true ↔ ∃ net ∈ nets, net.contains ip = true := by
  rw [contains_eq_table, (separated_table nets ip.family).contains_iff, member_table]
  refine exists_congr fun net => and_congr_right fun _ => ?_
  rw [IpNet.contains_iff, @eq_comm _ ip.family]

theorem exists_addr {family : Family} {value : Nat} (fits : value < 2 ^ family.bits) :
    ∃ ip : IpAddr, ip.family = family ∧ ip.toNat = value := by
  cases family with
  | v4 => exact ⟨.v4 (BitVec.ofNatLT value fits), rfl, rfl⟩
  | v6 => exact ⟨.v6 (BitVec.ofNatLT value fits), rfl, rfl⟩

/-- A set built from networks, in whatever order, holds exactly their addresses; it covers exactly
the networks all of whose addresses it holds; its intervals are separated; and it does not depend on
the order of the networks. -/
theorem fromNets_exact (nets : List IpNet) :
    (∀ ip, (fromNets nets).contains ip = true ↔ ∃ net ∈ nets, net.contains ip = true) ∧
    (∀ net, (fromNets nets).covers net = true ↔
      ∀ ip, net.contains ip = true → (fromNets nets).contains ip = true) ∧
    ((fromNets nets).v4.Separated ∧ (fromNets nets).v6.Separated) ∧
    ∀ others, others.Perm nets → fromNets others = fromNets nets := by
  refine ⟨fun ip => contains_fromNets, fun net => ?_,
    ⟨separated_table nets .v4, separated_table nets .v6⟩, fun others perm => ?_⟩
  · have separated := separated_table nets net.family
    rw [covers_eq_table, separated.covers_iff net.network_le_broadcast]
    constructor
    · intro members ip inNet
      obtain ⟨sameFamily, above, below⟩ := IpNet.contains_iff.mp inNet
      rw [contains_eq_table, sameFamily, separated.contains_iff]
      exact members ip.toNat above below
    · intro contained value above below
      have broadcastFits := net.broadcast.toNat_lt
      rw [IpNet.family_broadcast] at broadcastFits
      obtain ⟨ip, sameFamily, rfl⟩ := exists_addr (below.trans_lt broadcastFits)
      have inSet := contained ip (IpNet.contains_iff.mpr ⟨sameFamily, above, below⟩)
      rwa [contains_eq_table, sameFamily, separated.contains_iff] at inSet
  · have tables : ∀ family, (fromNets others).table family = (fromNets nets).table family := by
      intro family
      apply (separated_table others family).eq_of_member_iff (separated_table nets family)
      intro value
      simp only [member_table, perm.mem_iff]
    have sameV4 : (fromNets others).v4 = (fromNets nets).v4 := tables .v4
    have sameV6 : (fromNets others).v6 = (fromNets nets).v6 := tables .v6
    cases othersSet : fromNets others
    simp_all

/-- Two neighbouring blocks at the top of the address space, added in either order. -/
theorem fromNets_exact_adjacent :
    fromNets [⟨.v4 0xffffff00#32, 24, by decide⟩, ⟨.v4 0xfffffe00#32, 24, by decide⟩] =
      fromNets [⟨.v4 0xfffffe00#32, 24, by decide⟩, ⟨.v4 0xffffff00#32, 24, by decide⟩] :=
  (fromNets_exact _).2.2.2 _ (Perm.swap _ _ _)

end IpRangeSet

end MeowRs
