import MeowRs.FecSending

/-!
# Draining a generation

The decoder puts the packets it holds of one generation into rows and has the codec fill in the rows
that are absent.  When enough packets of one generation are drained, what comes out are the data rows
that were not among them.
-/

namespace MeowRs.Fec

open List Option Nat

open LittleEndian

/-- A payload behind its length, as it stands in a row. -/
def lengthPrefixed (payload : Bytes) : Bytes :=
  leBytes 2 ((payload.length + 2) % 2 ^ 16) ++ payload

section Draining

variable {shards : Shards} {headerOffset : ℕ} {codec : Codec} {s : State shards headerOffset}
  {pkt : Bytes} {rows pars : List Bytes} {n : ℕ} {drained : Drained} {ns : List ℕ}

theorem eq_of_same_generation {fst snd : ℕ} (gen : fst / shards.size = snd / shards.size)
    (pl : fst % shards.size = snd % shards.size) : fst = snd := by
  rw [← div_add_mod fst shards.size, ← div_add_mod snd shards.size, gen, pl]

section

variable (hse : Sending codec s)
include hse

section

variable (hs : s.sent n = some pkt)
include hs

theorem Sending.seqid_eq : seqid pkt = n % shards.paws := by
  obtain ⟨row, _, rfl⟩ := hse.wire hs
  exact seqid_append

theorem Sending.flag_eq :
    flag pkt = if n % shards.size < shards.data then typeData else typeParity := by
  obtain ⟨row, _, rfl⟩ := hse.wire hs
  apply flag_append
  split <;> decide

theorem Sending.flag_eq_typeData :
    flag pkt = typeData ↔ n % shards.size < shards.data := by
  rw [hse.flag_eq hs]
  split
  · simp [*]
  · simp [*, typeData, typeParity]

theorem Sending.length_ge : fecHeaderSizePlus2 ≤ pkt.length := by
  obtain ⟨row, hl, rfl⟩ := hse.wire hs
  simp only [length_append, length_leBytes, fecHeaderSizePlus2, fecHeaderSize]
  omega

end

end

/-- The rows after the packets of some numbers have been put into them. -/
structure Gathers (state : State shards headerOffset) (numbers : List ℕ) (drained : Drained) :
    Prop where
  rows_length : drained.rows.length = shards.size
  present_length : drained.presentData.length = shards.size
  filled : ∀ number ∈ numbers, ∃ packet, state.sent number = some packet ∧
    packet.length ≤ drained.maxlen + fecHeaderSize ∧
    drained.rows[number % shards.size]? = some (some (packet.drop fecHeaderSize))
  origin : ∀ (index : ℕ) (row : Bytes), drained.rows[index]? = some (some row) →
    ∃ number ∈ numbers, number % shards.size = index
  present : ∀ index < shards.size, drained.presentData[index]? =
    some (decide (∃ number ∈ numbers, number % shards.size = index ∧ index < shards.data))
  numData : drained.numData = numbers.countP fun number => number % shards.size < shards.data
  maxlen_le : ∀ width, (∀ number ∈ numbers, ∀ packet, state.sent number = some packet →
    packet.length ≤ width + fecHeaderSize) → drained.maxlen ≤ width

theorem gathers_blank : Gathers s [] (Drained.blank shards.size) where
  rows_length := length_replicate
  present_length := length_replicate
  filled := nofun
  origin i row hi := by
    simp [Drained.blank, getElem?_replicate] at hi
  present i hw := by
    simp [Drained.blank, hw]
  numData := rfl
  maxlen_le _ _ := zero_le _

def missing (shards : Shards) (generation : ℕ) (numbers : List ℕ) : List ℕ :=
  (range shards.data).filter fun place => generation * shards.size + place ∉ numbers

/-- The blobs are, in order, the length-prefixed payloads of the data packets at some places of a
generation, each padded with zeros. -/
def Recovers (state : State shards headerOffset) (generation : ℕ) : List ℕ → List Bytes → Prop :=
  Forall₂ fun place blob => ∃ payload zeros,
    state.payloads (generation * shards.size + place) = some payload ∧
      blob = lengthPrefixed payload ++ replicate zeros 0

theorem forall₂_filter_filterMap {First Second : Type*} {relation : First → Second → Prop}
    {keep : First → Bool} {pick : First → Option Second} {list : List First}
    (hk : ∀ e ∈ list, keep e = true → ∃ v, pick e = some v ∧
      relation e v) (hd : ∀ e ∈ list, keep e = false → pick e = none) :
    Forall₂ relation (list.filter keep) (list.filterMap pick) := by
  induction list with
  | nil => exact .nil
  | cons e list ih =>
    have nx := ih (fun o hm => hk o (mem_cons_of_mem _ hm))
      (fun o hm => hd o (mem_cons_of_mem _ hm))
    cases hke : keep e with
    | true =>
      obtain ⟨v, hp, hr⟩ := hk e mem_cons_self hke
      rw [filter_cons_of_pos hke, filterMap_cons_some hp]
      exact .cons hr nx
    | false =>
      rw [filter_cons_of_neg (by simp [hke]), filterMap_cons_none (hd e mem_cons_self hke)]
      exact nx

section

variable (hse : Sending codec s)
include hse

theorem Gathers.put (hg : Gathers s ns drained) (hs : s.sent n = some pkt)
    (hf : ∀ o ∈ ns, o % shards.size ≠ n % shards.size) :
    Gathers s (ns ++ [n]) (drained.put shards.size pkt) := by
  have i : seqid pkt % shards.size = n % shards.size := by
    rw [hse.seqid_eq hs, shards.mod_paws_mod_size]
  have hw : n % shards.size < shards.size := mod_lt _ shards.size_pos
  have hda := hse.flag_eq_typeData hs
  constructor
  · simp only [Drained.put, length_set, hg.rows_length]
  · simp only [Drained.put]
    split
    · rw [length_set, hg.present_length]
    · exact hg.present_length
  · intro o hm
    obtain ho | hn := mem_append.mp hm
    · obtain ⟨held, hsh, hb, row⟩ := hg.filled o ho
      refine ⟨held, hsh, ?_, ?_⟩
      · exact le_trans hb (Nat.add_le_add_right (le_max_left _ _) _)
      · simp only [Drained.put, i]
        rw [getElem?_set_ne (hf o ho).symm, row]
    · cases mem_singleton.mp hn
      refine ⟨pkt, hs, ?_, ?_⟩
      · have hl := le_max_right drained.maxlen (pkt.length - fecHeaderSize)
        simp only [Drained.put]
        omega
      · simp only [Drained.put, i]
        rw [getElem?_set_self (by rw [hg.rows_length]; exact hw)]
  · intro pl row hi
    simp only [Drained.put, i] at hi
    by_cases hsa : n % shards.size = pl
    · exact ⟨n, by simp, hsa⟩
    · rw [getElem?_set_ne hsa] at hi
      obtain ⟨o, hm, hh⟩ := hg.origin pl row hi
      exact ⟨o, mem_append_left _ hm, hh⟩
  · intro pl hb
    have ho := hg.present pl hb
    simp only [Drained.put, i, hda]
    split
    · by_cases hsa : n % shards.size = pl
      · subst hsa
        rw [getElem?_set_self (by rw [hg.present_length]; exact hw)]
        have hh : ∃ o ∈ ns ++ [n],
            o % shards.size = n % shards.size ∧ n % shards.size < shards.data :=
          ⟨n, by simp, rfl, ‹_›⟩
        rw [decide_eq_true hh]
      · rw [getElem?_set_ne hsa, ho]
        simp [hsa]
    · rw [ho]
      congr 2
      apply propext
      constructor
      · rintro ⟨o, hm, hr⟩
        exact ⟨o, mem_append_left _ hm, hr⟩
      · rintro ⟨o, hm, hh, hd⟩
        obtain hm | hsa := mem_append.mp hm
        · exact ⟨o, hm, hh, hd⟩
        · cases mem_singleton.mp hsa
          omega
  · simp only [Drained.put, hda, countP_append, countP_singleton, ← hg.numData]
    split <;> simp [*]
  · intro w hbo
    apply Nat.max_le.mpr
    constructor
    · exact hg.maxlen_le w fun o hm =>
        hbo o (mem_append_left _ hm)
    · have hb := hbo n (by simp) pkt hs
      omega

theorem gathers_foldl {done ns : List ℕ} {packets : List Bytes} (hg : Gathers s done drained)
    (hs : Forall₂ (fun n pkt => s.sent n = some pkt) ns packets)
    (hp : ((done ++ ns).map (· % shards.size)).Nodup) :
    Gathers s (done ++ ns) (packets.foldl (Drained.put shards.size) drained) := by
  induction hs generalizing done drained with
  | nil => simpa using hg
  | @cons n pkt ns packets hh _ ih =>
    have hf : ∀ o ∈ done, o % shards.size ≠ n % shards.size := by
      rw [map_append, map_cons, nodup_append] at hp
      intro o hm
      exact hp.2.2 _ (mem_map_of_mem hm) _ mem_cons_self
    have hsh : done ++ n :: ns = (done ++ [n]) ++ ns := by simp
    rw [hsh] at hp ⊢
    exact ih (hg.put hse hh hf) hp

theorem gathers_drain {packets : List Bytes}
    (hs : Forall₂ (fun n pkt => s.sent n = some pkt) ns packets)
    (hp : (ns.map (· % shards.size)).Nodup) : Gathers s ns (Drained.drain shards.size packets) :=
  gathers_foldl hse gathers_blank hs hp

theorem Codeword.row_eq {gen w pl : ℕ} (hwo : Codeword codec shards s.sent gen rows pars w)
    (hw : pl < shards.data) :
    ∃ p zeros, s.payloads (gen * shards.size + pl) = some p ∧
      rows[pl]? = some (lengthPrefixed p ++ replicate zeros 0) := by
  obtain ⟨pkt, hs, hb, row⟩ := hwo.data pl hw
  have hi : pl < shards.size := lt_of_lt_of_le hw (le_add_right _ _)
  obtain ⟨p, hh, rfl⟩ := hse.data _ pkt hs (by rwa [shards.mod_size_add hi])
  have hr : (FecEncoder.dataWire ((gen * shards.size + pl) % shards.paws) p).drop
      fecHeaderSize = lengthPrefixed p := drop_header_append
  rw [FecEncoder.length_dataWire] at hb
  refine ⟨p, w - (lengthPrefixed p).length, hh, ?_⟩
  rw [row, hr, resize_eq_append]
  simp only [lengthPrefixed, length_append, length_leBytes, fecHeaderSize] at hb ⊢
  omega

end

theorem Gathers.recover_of_data (hg : Gathers s ns drained) (he : shards.data ≤ ns.length)
    (hd : ∀ n ∈ ns, n % shards.size < shards.data) : drained.recover codec shards.data = [] := by
  have ha : drained.numData = ns.length := by
    rw [hg.numData]
    exact countP_eq_length.mpr fun n hm => decide_eq_true (hd n hm)
  rw [Drained.recover, if_neg]
  omega

variable {gen : ℕ}

theorem Codeword.row_of_sent {w : ℕ}
    (hwo : Codeword codec shards s.sent (n / shards.size) rows pars w) (hs : s.sent n = some pkt) :
    pkt.length ≤ w + fecHeaderSize ∧
      (shards.data ≤ n % shards.size → pkt.length = w + fecHeaderSize) ∧
      (rows ++ pars)[n % shards.size]? =
        some (resize (pkt.drop fecHeaderSize) w) := by
  by_cases pl : n % shards.size < shards.data
  · obtain ⟨_, hsd, hbo, hr⟩ := hwo.data _ pl
    rw [div_add_mod', hs] at hsd
    cases hsd
    refine ⟨hbo, fun hb => absurd pl (not_lt_of_ge hb), ?_⟩
    rw [getElem?_append_left (by rw [hwo.rows_length]; exact pl), hr]
  · obtain ⟨hi, number_eq⟩ := shards.parity_place pl
    obtain ⟨par, hli, hl, hsp⟩ := hwo.parity _ hi
    rw [number_eq, hs] at hsp
    cases hsp
    have wh : (FecEncoder.parityWire (n % shards.paws) par).length =
        w + fecHeaderSize := by
      simp only [FecEncoder.parityWire, length_append, length_leBytes, hl, fecHeaderSize]
      omega
    have hre : (FecEncoder.parityWire (n % shards.paws) par).drop fecHeaderSize = par :=
      drop_header_append
    refine ⟨le_of_eq wh, fun _ => wh, ?_⟩
    rw [hre, ← hl, resize_self,
      getElem?_append_right (by rw [hwo.rows_length]; exact le_of_not_gt pl),
      hwo.rows_length, hli]

section

variable {w : ℕ} (hg : Gathers s ns drained)
  (hwo : Codeword codec shards s.sent gen rows pars w)
  (hsa : ∀ n ∈ ns, n / shards.size = gen)
include hg hwo hsa

theorem Gathers.padded_eq (hma : drained.maxlen = w) (i : ℕ) (row : Bytes)
    (hi : (drained.rows.map fun row => row.map fun bs => resize bs drained.maxlen)[i]? =
      some (some row)) : (rows ++ pars)[i]? = some row := by
  rw [getElem?_map] at hi
  obtain ⟨held, hh, hp⟩ := map_eq_some_iff.mp hi
  obtain ⟨bs, rfl, rfl⟩ := map_eq_some_iff.mp hp
  obtain ⟨n, hm, rfl⟩ := hg.origin i bs hh
  obtain ⟨pkt, hs, hb, hf⟩ := hg.filled n hm
  rw [hh] at hf
  cases hf
  rw [hma]
  rw [← hsa n hm] at hwo
  exact (hwo.row_of_sent hs).2.2

theorem Gathers.maxlen_eq {pn : ℕ} (hm : pn ∈ ns)
    (hp : shards.data ≤ pn % shards.size) : drained.maxlen = w := by
  apply le_antisymm
  · refine hg.maxlen_le w fun n hm pkt hs => ?_
    rw [← hsa n hm] at hwo
    exact (hwo.row_of_sent hs).1
  · obtain ⟨pkt, hs, hb, _⟩ := hg.filled pn hm
    rw [← hsa pn hm] at hwo
    have wh := (hwo.row_of_sent hs).2.1 hp
    omega

end

/-- Enough packets of one generation, a parity packet among them: the data rows that are not among
them come out. -/
theorem Gathers.recover_of_parity (hla : codec.Lawful shards.data shards.parity)
    (hse : Sending codec s) (hg : Gathers s ns drained) (hpl : (ns.map (· % shards.size)).Nodup)
    (len : ns.length = shards.data) (hsa : ∀ n ∈ ns, n / shards.size = gen) {pn : ℕ} (hm : pn ∈ ns)
    (hp : shards.data ≤ pn % shards.size) :
    Recovers s gen (missing shards gen ns)
      (drained.recover codec shards.data) := by
  obtain ⟨pkt, hs, _, _⟩ := hg.filled pn hm
  obtain ⟨rows, pars, w, _, hwo⟩ := hse.coded pn pkt hs hp
  rw [hsa pn hm] at hwo
  have hma := hg.maxlen_eq hwo hsa hm hp
  have hf : drained.numData < shards.data := by
    rw [hg.numData, ← len]
    apply lt_of_le_of_ne countP_le_length
    intro all
    have hd := countP_eq_length.mp all pn hm
    rw [decide_eq_true_eq] at hd
    omega
  obtain ⟨filled, hr, filled_length, filled_eq⟩ := hla.reconstructs rows pars
      (drained.rows.map fun row => row.map fun bs => resize bs drained.maxlen)
      (ns.map (· % shards.size)) hwo.rows_length hwo.encodes
      (by rw [length_map, hg.rows_length, Shards.size])
      (hg.padded_eq hwo hsa hma) hpl (by rw [length_map, len])
      (by
        intro i hl
        obtain ⟨n, hm, rfl⟩ := mem_map.mp hl
        obtain ⟨pkt, _, _, hh⟩ := hg.filled n hm
        exact ⟨_, by rw [getElem?_map, hh]; rfl⟩)
  have es : (filled.zip drained.presentData).take shards.data =
      (range shards.data).map fun pl =>
        (rows[pl]?, decide (gen * shards.size + pl ∈ ns)) := by
    apply ext_getElem?
    intro pl
    by_cases hw : pl < shards.data
    · have hi : pl < shards.size := lt_of_lt_of_le hw (le_add_right _ _)
      obtain ⟨p, zeros, _, row⟩ := hwo.row_eq hse hw
      have hh : (∃ n ∈ ns, n % shards.size = pl ∧ pl < shards.data) ↔
          gen * shards.size + pl ∈ ns := by
        constructor
        · rintro ⟨n, hm, rfl, _⟩
          rw [← hsa n hm, div_add_mod']
          exact hm
        · intro hm
          exact ⟨_, hm, shards.mod_size_add hi, hw⟩
      have hz : (filled.zip drained.presentData)[pl]? =
          some (some (lengthPrefixed p ++ replicate zeros 0),
            decide (gen * shards.size + pl ∈ ns)) := by
        apply getElem?_zip_eq_some.mpr
        refine ⟨filled_eq pl _ row, ?_⟩
        rw [hg.present pl hi, decide_eq_decide.mpr hh]
      rw [getElem?_take_of_lt hw, getElem?_map, getElem?_range hw, hz, map_some, row]
    · rw [getElem?_eq_none, getElem?_eq_none]
      · rw [length_map, length_range]
        exact le_of_not_gt hw
      · exact le_trans (length_take_le _ _) (le_of_not_gt hw)
  rw [Drained.recover, if_pos hf]
  simp only [hr, es, filterMap_map]
  apply forall₂_filter_filterMap
  · intro pl hl ha
    obtain ⟨p, zeros, held, row⟩ := hwo.row_eq hse (mem_range.mp hl)
    refine ⟨_, ?_, p, zeros, held, rfl⟩
    simp only [decide_eq_true_eq] at ha
    simp [ha, row]
  · intro pl hl ht
    simp only [decide_eq_false_iff_not, not_not] at ht
    simp [ht]

end Draining

end MeowRs.Fec
