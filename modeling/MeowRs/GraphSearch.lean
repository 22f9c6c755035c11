import Mathlib

/-!
# Depth-first searches over finite graphs

Two loops over a graph given by its successor lists: a worklist search for a target, and a
three-colour search that reports the first cycle it runs into.  Both take fuel; with as much of it
as the graph has nodes and edges they always finish.
-/

namespace MeowRs

open List Option Function

namespace GraphSearch

variable {α : Type}

def openWeight (weight : α → Nat) (closed : α → Bool) : List α → Nat
  | [] => 0
  | node :: nodes => (if closed node then 0 else weight node) + openWeight weight closed nodes

section Weight

variable (weight : α → Nat) {closed wider : α → Bool}

theorem openWeight_mono (hm : ∀ node, closed node = true → wider node = true) (nodes : List α) :
    openWeight weight wider nodes ≤ openWeight weight closed nodes := by
  induction nodes with
  | nil => exact Nat.le_refl 0
  | cons node nodes ih =>
    have hh := hm node
    unfold openWeight
    by_cases hc : closed node = true
    · simp only [hc, hh hc, if_true]
      omega
    · rw [if_neg hc]
      split <;> omega

theorem openWeight_le (closed : α → Bool) (nodes : List α) :
    openWeight weight closed nodes ≤ (nodes.map weight).sum := by
  induction nodes with
  | nil => exact Nat.le_refl 0
  | cons node nodes ih =>
    simp only [openWeight, map_cons, sum_cons]
    split <;> omega

theorem openWeight_close (hm : ∀ node, closed node = true → wider node = true) {nodes : List α}
    {node : α} (mem : node ∈ nodes) (ho : closed node = false) (hclo : wider node = true) :
    openWeight weight wider nodes + weight node ≤ openWeight weight closed nodes := by
  induction nodes with
  | nil => cases mem
  | cons first nodes ih =>
    have hr := openWeight_mono weight hm nodes
    rcases mem_cons.mp mem with rfl | hl
    · simp only [openWeight, ho, hclo, if_true, Bool.false_eq_true, if_false]
      omega
    · have hli := ih hl
      have hh := hm first
      unfold openWeight
      by_cases hc : closed first = true
      · simp only [hc, hh hc, if_true]
        omega
      · rw [if_neg hc]
        split <;> omega

end Weight

variable [DecidableEq α]

section Worklist

variable {fuel : Nat} {stack visited : List α}

/-- Whether a worklist search meets the target; `none` when the fuel runs out. -/
def meets (next : α → List α) (target : α) : Nat → List α → List α → Option Bool
  | 0, _, _ => none
  | _ + 1, [], _ => some false
  | fuel + 1, node :: stack, visited =>
    if node = target then some true
    else if node ∈ visited then meets next target fuel stack visited
    else meets next target fuel (next node ++ stack) (node :: visited)

variable {next : α → List α} {tgt : α}

/-- The search finishes when the fuel exceeds the stack and the edges not followed yet. -/
theorem meets_isSome {nodes : List α} (ho : ∀ node, node ∉ nodes → next node = [])
    (he : stack.length +
      openWeight (fun node => (next node).length) (fun node => node ∈ visited) nodes < fuel) :
    (meets next tgt fuel stack visited).isSome = true := by
  induction fuel generalizing stack visited with
  | zero => omega
  | succ fuel ih =>
    cases stack with
    | nil => rfl
    | cons node stack =>
      rw [length_cons] at he
      rw [meets]
      split
      · rfl
      split
      · exact ih (by omega)
      · rename_i fresh
        have hm : ∀ o, decide (o ∈ visited) = true →
            decide (o ∈ node :: visited) = true := by
          intro o
          simp only [decide_eq_true_eq]
          exact mem_cons_of_mem node
        apply ih
        rw [length_append]
        by_cases hli : node ∈ nodes
        · have hl := openWeight_close (fun node => (next node).length) hm hli
            (by simpa using fresh) (by simp)
          omega
        · have hl := openWeight_mono (fun node => (next node).length) hm nodes
          rw [ho node hli, length_nil]
          omega

/-- A search that ends without the target has closed off a set of nodes around it. -/
theorem exists_closed_of_meets (hmi : meets next tgt fuel stack visited = some false)
    (hf : ∀ node ∈ visited, ∀ o ∈ next node, o ∈ visited ∨ o ∈ stack) (hny : tgt ∉ visited) :
    ∃ closed : α → Prop, (∀ node ∈ stack, closed node) ∧ (∀ node ∈ visited, closed node) ∧
      (∀ node, closed node → ∀ o ∈ next node, closed o) ∧ ¬ closed tgt := by
  induction fuel generalizing stack visited with
  | zero => cases hmi
  | succ fuel ih =>
    cases stack with
    | nil =>
      refine ⟨(· ∈ visited), nofun, fun node hm => hm, ?_, hny⟩
      intro node hm o hn
      exact (hf node hm o hn).resolve_right not_mem_nil
    | cons node stack =>
      rw [meets] at hmi
      split at hmi
      · cases hmi
      rename_i hnt
      split at hmi
      · rename_i hs
        obtain ⟨closed, ho, hv, hc, ha⟩ := ih hmi (by
            intro first hm o hn
            rcases hf first hm o hn with hd | hpe
            · exact .inl hd
            · rcases mem_cons.mp hpe with rfl | hl
              · exact .inl hs
              · exact .inr hl)
          hny
        refine ⟨closed, ?_, hv, hc, ha⟩
        intro o hm
        rcases mem_cons.mp hm with rfl | hl
        · exact hv _ hs
        · exact ho o hl
      · obtain ⟨closed, ho, hv, hc, ha⟩ := ih hmi (by
            intro first hm o hn
            rcases mem_cons.mp hm with rfl | hp
            · exact .inr (mem_append_left _ hn)
            · rcases hf first hp o hn with hd | hpe
              · exact .inl (mem_cons_of_mem _ hd)
              · rcases mem_cons.mp hpe with rfl | hl
                · exact .inl mem_cons_self
                · exact .inr (mem_append_right _ hl))
          (by
            intro hm
            rcases mem_cons.mp hm with same | hp
            · exact hnt same.symm
            · exact hny hp)
        refine ⟨closed, ?_, fun o hm => hv o (mem_cons_of_mem _ hm), hc, ha⟩
        intro o hm
        rcases mem_cons.mp hm with rfl | hl
        · exact hv _ mem_cons_self
        · exact ho o (mem_append_right _ hl)

/-- A search from one node that misses the target shows that no path leads there. -/
theorem not_reaches_of_meets {start : α} (hm : meets next tgt fuel [start] [] = some false) :
    ¬ Relation.ReflTransGen (fun node o => o ∈ next node) start tgt := by
  obtain ⟨closed, ho, _, hc, ha⟩ :=
    exists_closed_of_meets hm nofun not_mem_nil
  have hr : ∀ {node : α},
      Relation.ReflTransGen (fun node o => o ∈ next node) start node → closed node := by
    intro node hp
    induction hp with
    | refl => exact ho start mem_cons_self
    | tail _ hs ih => exact hc _ ih _ hs
  exact fun hp => ha (hr hp)

end Worklist

inductive Mark where
  | visiting
  | done
  deriving DecidableEq, Repr

section ThreeColour

variable {stack : List (α × Nat)} {marks after : α → Option Mark} {fuel : Nat}
  {starts : List α} {taken : Nat}

/-- The nodes of a search path from `child` on, closed by `child` itself; the stack has its top
first. -/
def cycleFrom (child : α) (stack : List (α × Nat)) : List α :=
  ((stack.map Prod.fst).reverse.dropWhile (· ≠ child)) ++ [child]

/-- A depth-first search with its path on an explicit stack of nodes and how many of their children
have been taken; `none` when the fuel runs out, an error with the path of a cycle. -/
def explore (children : α → List α) :
    Nat → List (α × Nat) → (α → Option Mark) → Option (Except (List α) (α → Option Mark))
  | 0, _, _ => none
  | _ + 1, [], marks => some (.ok marks)
  | fuel + 1, (node, taken) :: stack, marks =>
    match (children node)[taken]? with
    | some child =>
      match marks child with
      | some .visiting => some (.error (cycleFrom child ((node, taken) :: stack)))
      | some .done => explore children fuel ((node, taken + 1) :: stack) marks
      | none =>
        explore children fuel ((child, 0) :: (node, taken + 1) :: stack)
          (update marks child (some .visiting))
    | none => explore children fuel stack (update marks node (some .done))

/-- Search from every node that no earlier search has marked. -/
def exploreAll (children : α → List α) (fuel : Nat) :
    List α → (α → Option Mark) → Option (Except (List α) (α → Option Mark))
  | [], marks => some (.ok marks)
  | start :: starts, marks =>
    if (marks start).isSome then exploreAll children fuel starts marks
    else
      match explore children fuel [(start, 0)] (update marks start (some .visiting)) with
      | some (.ok marks) => exploreAll children fuel starts marks
      | stopped => stopped

variable {cs : α → List α}

/-- The work left: the nodes and edges not reached yet, and those of the search path. -/
def workLeft (children : α → List α) (nodes : List α) (stack : List (α × Nat))
    (marks : α → Option Mark) : Nat :=
  openWeight (fun node => (children node).length + 1) (fun node => (marks node).isSome) nodes +
    (stack.map fun frame => (children frame.1).length - frame.2 + 1).sum

theorem isSome_update (marks : α → Option Mark) (node : α) (mark : Mark) (o : α)
    (hm : (marks o).isSome = true) : (update marks node (some mark) o).isSome = true := by
  rcases eq_or_ne o node with rfl | hd
  · rw [update_self]
    rfl
  · rwa [update_of_ne hd]

theorem explore_isSome {nodes : List α} (hl : ∀ node, ∀ c ∈ cs node, c ∈ nodes)
    (he : workLeft cs nodes stack marks < fuel) : (explore cs fuel stack marks).isSome = true := by
  induction fuel generalizing stack marks with
  | zero => omega
  | succ fuel ih =>
    cases stack with
    | nil => rfl
    | cons f stack =>
      obtain ⟨node, taken⟩ := f
      simp only [workLeft, map_cons, sum_cons] at he
      rw [explore]
      cases hc : (cs node)[taken]? with
      | none =>
        apply ih
        have hli := openWeight_mono (fun node => (cs node).length + 1)
          (isSome_update marks node .done) nodes
        simp only [workLeft]
        omega
      | some c =>
        have hi := (List.getElem?_eq_some_iff.mp hc).1
        dsimp only
        cases hm : marks c with
        | some known =>
          cases known with
          | visiting => rfl
          | done =>
            apply ih
            simp only [workLeft, map_cons, sum_cons]
            omega
        | none =>
          apply ih
          have hli := openWeight_close (fun node => (cs node).length + 1)
            (isSome_update marks c .visiting)
            (hl node c (mem_of_getElem? hc)) (by simp [hm]) (by simp)
          simp only [workLeft, map_cons, sum_cons]
          omega

theorem exploreAll_isSome {nodes : List α} (hl : ∀ node, ∀ c ∈ cs node, c ∈ nodes)
    (hen : (nodes.map fun node => (cs node).length + 1).sum < fuel)
    (hsl : ∀ start ∈ starts, start ∈ nodes) (marks : α → Option Mark) :
    (exploreAll cs fuel starts marks).isSome = true := by
  induction starts generalizing marks with
  | nil => rfl
  | cons start starts ih =>
    obtain ⟨hs, hr⟩ := forall_mem_cons.mp hsl
    rw [exploreAll]
    split
    · exact ih hr marks
    · rename_i unmarked
      have hlig := openWeight_close (fun node => (cs node).length + 1)
        (isSome_update marks start .visiting) hs (by simpa using unmarked) (by simp)
      have ht := openWeight_le (fun node => (cs node).length + 1)
        (fun node => (marks node).isSome) nodes
      have hw : workLeft cs nodes [(start, 0)]
          (update marks start (some .visiting)) < fuel := by
        simp only [workLeft, map_cons, map_nil, sum_cons, sum_nil]
        omega
      have hf := explore_isSome hl hw
      obtain ⟨res, he⟩ := isSome_iff_exists.mp hf
      rw [he]
      cases res with
      | error cycle => rfl
      | ok after => exact ih hr after

/-- The taken children of every node on the search path are done, except for the one above it. -/
def PathTaken (children : α → List α) (marks : α → Option Mark) :
    Option α → List (α × Nat) → Prop
  | _, [] => True
  | above, (node, taken) :: stack =>
    (∀ k < taken, ∀ child, (children node)[k]? = some child →
      marks child = some .done ∨ above = some child) ∧
    PathTaken children marks (some node) stack

omit [DecidableEq α] in
theorem PathTaken.mono {marks later : α → Option Mark}
    (hk : ∀ node, marks node = some .done → later node = some .done) {above : Option α}
    (taken : PathTaken cs marks above stack) : PathTaken cs later above stack := by
  induction stack generalizing above with
  | nil => trivial
  | cons frame stack ih =>
    obtain ⟨hf, hr⟩ := taken
    refine ⟨fun k lt child at_ => ?_, ih hr⟩
    exact (hf k lt child at_).imp (hk child) id

/-- What the search keeps: finished nodes lie on no cycle, and the open ones are on the path. -/
structure Sound (children : α → List α) (stack : List (α × Nat)) (marks : α → Option Mark) :
    Prop where
  acc {node : α} : marks node = some .done → Acc (fun other node => other ∈ children node) node
  open_ {node : α} : marks node = some .visiting → node ∈ stack.map Prod.fst
  path : PathTaken children marks none stack

theorem Sound.finish {node : α} (hs : Sound cs ((node, taken) :: stack) marks)
    (hc : (cs node)[taken]? = none) : Sound cs stack (update marks node (some .done)) := by
  obtain ⟨hh, hb⟩ := hs.path
  have hfi : ∀ c ∈ cs node, marks c = some .done := by
    intro c hm
    obtain ⟨k, at_⟩ := List.mem_iff_getElem?.mp hm
    have hi := (List.getElem?_eq_some_iff.mp at_).1
    have hbey := getElem?_eq_none_iff.mp hc
    exact (hh k (by omega) c at_).resolve_right nofun
  have hk : ∀ o, marks o = some .done →
      update marks node (some .done) o = some .done := by
    intro o hdo
    rcases eq_or_ne o node with rfl | hd
    · exact update_self ..
    · rwa [update_of_ne hd]
  constructor
  · intro o hdo
    rcases eq_or_ne o node with rfl | hd
    · exact Acc.intro _ fun c hm => hs.acc (hfi c hm)
    · rw [update_of_ne hd] at hdo
      exact hs.acc hdo
  · intro o ho
    rcases eq_or_ne o node with rfl | hd
    · rw [update_self] at ho
      cases ho
    · rw [update_of_ne hd] at ho
      exact (mem_cons.mp (hs.open_ ho)).resolve_left hd
  · -- The node below has this one among its taken children, which is done from now on.
    cases stack with
    | nil => trivial
    | cons f stack =>
      obtain ⟨hf, hr⟩ := hb
      refine ⟨fun k lt c at_ => .inl ?_, hr.mono hk⟩
      rcases hf k lt c at_ with hdo | hn
      · exact hk c hdo
      · obtain rfl := some.inj hn
        exact update_self ..

omit [DecidableEq α] in
theorem Sound.skip {node child : α} (hs : Sound cs ((node, taken) :: stack) marks)
    (hc : (cs node)[taken]? = some child) (hd : marks child = some .done) :
    Sound cs ((node, taken + 1) :: stack) marks := by
  obtain ⟨hh, hb⟩ := hs.path
  refine ⟨hs.acc, hs.open_, fun k lt o at_ => ?_, hb⟩
  rcases Nat.lt_succ_iff_lt_or_eq.mp lt with hp | rfl
  · exact hh k hp o at_
  · rw [hc, some.injEq] at at_
    exact .inl (at_ ▸ hd)

theorem of_update_visiting {c o : α} {mark : Mark}
    (hm : update marks c (some .visiting) o = some mark) :
    o = c ∧ mark = .visiting ∨ marks o = some mark := by
  rcases eq_or_ne o c with rfl | hd
  · rw [update_self] at hm
    exact .inl ⟨rfl, (some.inj hm).symm⟩
  · rw [update_of_ne hd] at hm
    exact .inr hm

theorem Sound.enter {node c : α} (hs : Sound cs ((node, taken) :: stack) marks)
    (hc : (cs node)[taken]? = some c) (hf : marks c = none) :
    Sound cs ((c, 0) :: (node, taken + 1) :: stack)
    (update marks c (some .visiting)) := by
  obtain ⟨hh, hb⟩ := hs.path
  have hk : ∀ o, marks o = some .done →
      update marks c (some .visiting) o = some .done := by
    intro o hd
    have hdi : o ≠ c := by
      rintro rfl
      rw [hf] at hd
      cases hd
    rwa [update_of_ne hdi]
  constructor
  · exact fun hd => hs.acc ((of_update_visiting hd).resolve_left fun h => nomatch h.2)
  · intro o ho
    rcases of_update_visiting ho with ⟨rfl, -⟩ | ho
    · exact mem_cons_self
    · exact mem_cons_of_mem _ (hs.open_ ho)
  · refine ⟨fun k lt => absurd lt (Nat.not_lt_zero k), fun k lt o at_ => ?_, hb.mono hk⟩
    rcases Nat.lt_succ_iff_lt_or_eq.mp lt with hp | rfl
    · exact .inl (hk o ((hh k hp o at_).resolve_right nofun))
    · rw [hc] at at_
      exact .inr at_

theorem Sound.start {start : α} (hs : Sound cs [] marks) (hf : marks start = none) :
    Sound cs [(start, 0)] (update marks start (some .visiting)) := by
  constructor
  · exact fun hd => hs.acc ((of_update_visiting hd).resolve_left fun h => nomatch h.2)
  · intro o ho
    rcases of_update_visiting ho with ⟨rfl, -⟩ | ho
    · exact mem_cons_self
    · exact mem_cons_of_mem _ (hs.open_ ho)
  · exact ⟨fun k lt => absurd lt (Nat.not_lt_zero k), trivial⟩

theorem explore_sound (hs : Sound cs stack marks)
    (he : explore cs fuel stack marks = some (.ok after)) :
    Sound cs [] after ∧ ∀ node, (marks node).isSome = true → (after node).isSome = true := by
  induction fuel generalizing stack marks with
  | zero => cases he
  | succ fuel ih =>
    cases stack with
    | nil =>
      cases he
      exact ⟨hs, fun _ hma => hma⟩
    | cons f stack =>
      obtain ⟨node, taken⟩ := f
      rw [explore] at he
      cases hc : (cs node)[taken]? with
      | none =>
        rw [hc] at he
        obtain ⟨hl, hk⟩ := ih (hs.finish hc) he
        exact ⟨hl, fun o hma => hk o (isSome_update _ _ _ _ hma)⟩
      | some c =>
        rw [hc] at he
        dsimp only at he
        cases hm : marks c with
        | some known =>
          rw [hm] at he
          cases known with
          | visiting => cases he
          | done => exact ih (hs.skip hc hm) he
        | none =>
          rw [hm] at he
          obtain ⟨hl, hk⟩ := ih (hs.enter hc hm) he
          exact ⟨hl, fun o hma => hk o (isSome_update _ _ _ _ hma)⟩

theorem exploreAll_sound (hs : Sound cs [] marks)
    (he : exploreAll cs fuel starts marks = some (.ok after)) :
    Sound cs [] after ∧ (∀ node, (marks node).isSome = true → (after node).isSome = true) ∧
      ∀ node ∈ starts, (after node).isSome = true := by
  induction starts generalizing marks with
  | nil =>
    cases he
    exact ⟨hs, fun _ hm => hm, nofun⟩
  | cons start starts ih =>
    rw [exploreAll] at he
    split at he
    · rename_i hm
      obtain ⟨hl, hk, hc⟩ := ih hs he
      exact ⟨hl, hk, forall_mem_cons.mpr ⟨hk start hm, hc⟩⟩
    · rename_i unmarked
      split at he
      · rename_i reached inner
        obtain ⟨mid, hki⟩ := explore_sound (hs.start (not_isSome_iff_eq_none.mp unmarked)) inner
        obtain ⟨hl, hk, hc⟩ := ih mid he
        have hsm := hk start (hki start (by simp))
        exact ⟨hl, fun node hm => hk node (hki node (isSome_update _ _ _ _ hm)),
          forall_mem_cons.mpr ⟨hsm, hc⟩⟩
      · rename_i notOk
        exact absurd he (notOk after)

/-- A search of all nodes that reports no cycle shows that every path from them ends. -/
theorem acc_of_exploreAll {after : α → Option Mark}
    (he : exploreAll cs fuel starts (fun _ => none) = some (.ok after)) {node : α}
    (mem : node ∈ starts) : Acc (fun o node => o ∈ cs node) node := by
  have hs : Sound cs [] fun _ => none := ⟨nofun, nofun, trivial⟩
  obtain ⟨hl, _, hc⟩ := exploreAll_sound hs he
  have hma := hc node mem
  cases hm : after node with
  | none => simp [hm] at hma
  | some known =>
    cases known with
    | visiting => exact absurd (hl.open_ hm) not_mem_nil
    | done => exact hl.acc hm

end ThreeColour

end GraphSearch

end MeowRs
