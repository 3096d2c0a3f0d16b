import Mathlib.Data.List.Basic

set_option autoImplicit false

namespace ArithCircuit

variable {α : Type} {key : α → Nat}

def makeRoom (key : α → Nat) (x : α) (ranked : α × Nat) : α × Nat :=
  (ranked.1, ranked.2 + (decide (key x < key ranked.1)).toNat)

def ranks (key : α → Nat) : List α → List Nat
  | [] => []
  | x :: later => later.countP (key · ≤ key x) ::
      ((later.zip (ranks key later)).map (makeRoom key x)).map Prod.snd

theorem zip_makeRoom (x : α) (elements : List α) (places : List Nat) :
    elements.zip (((elements.zip places).map (makeRoom key x)).map Prod.snd) =
      (elements.zip places).map (makeRoom key x) := by
  induction elements generalizing places with
  | nil => rfl
  | cons a rest ih =>
    cases places with
    | nil => rfl
    | cons place others =>
      simp only [List.zip_cons_cons, List.map_cons, ih]
      rfl

theorem ranks_of_distinct {elements : List α} (distinct : (elements.map key).Nodup) :
    ranks key elements = elements.map fun x => elements.countP (key · < key x) := by
  induction elements with
  | nil => rfl
  | cons x later ih =>
    obtain ⟨absent, distinct⟩ := List.nodup_cons.mp distinct
    have others : ∀ y ∈ later, key y ≠ key x :=
      fun y member same => absent (same ▸ List.mem_map_of_mem member)
    rw [ranks, ih distinct, ← List.map_prod_left_eq_zip, List.map_map, List.map_map, List.map_cons,
      List.countP_cons_of_neg (by simp)]
    congr 1
    · exact List.countP_congr fun y member => by
        have different := others y member
        simp only [decide_eq_true_eq]
        omega
    · refine List.map_congr_left fun y _ => ?_
      by_cases before : key x < key y <;> simp [makeRoom, before]

theorem split_sorted {sorted : List α} (ascending : sorted.Pairwise (key · ≤ key ·)) (x : α) :
    ∃ smaller greater, sorted = smaller ++ greater ∧ (∀ y ∈ smaller, key y ≤ key x) ∧
      ∀ y ∈ greater, key x < key y := by
  induction sorted with
  | nil => exact ⟨[], [], rfl, by simp, by simp⟩
  | cons a rest ih =>
    obtain ⟨least, ascending⟩ := List.pairwise_cons.mp ascending
    by_cases before : key a ≤ key x
    · obtain ⟨smaller, greater, rfl, below, above⟩ := ih ascending
      refine ⟨a :: smaller, greater, rfl, ?_, above⟩
      simpa using ⟨before, below⟩
    · refine ⟨[], a :: rest, rfl, by simp, ?_⟩
      intro y member
      cases member with
      | head => omega
      | tail _ later => exact Nat.lt_of_lt_of_le (by omega) (least y later)

section Insert

variable {x : α} {smaller greater : List α}

theorem sorted_insert (ascending : (smaller ++ greater).Pairwise (key · ≤ key ·))
    (below : ∀ y ∈ smaller, key y ≤ key x) (above : ∀ y ∈ greater, key x < key y) :
    (smaller ++ x :: greater).Pairwise (key · ≤ key ·) := by
  obtain ⟨first, second, across⟩ := List.pairwise_append.mp ascending
  refine List.pairwise_append.mpr ⟨first, List.pairwise_cons.mpr ⟨?_, second⟩, ?_⟩
  · exact fun y member => Nat.le_of_lt (above y member)
  · intro y member z other
    cases other with
    | head => exact below y member
    | tail _ later => exact across y member z later

theorem zipIdx_insert (below : ∀ y ∈ smaller, key y ≤ key x) (above : ∀ y ∈ greater, key x < key y) :
    ((x, smaller.length) :: (smaller ++ greater).zipIdx.map (makeRoom key x)).Perm
      (smaller ++ x :: greater).zipIdx := by
  have kept : smaller.zipIdx.map (makeRoom key x) = smaller.zipIdx := by
    refine (List.map_congr_left fun place member => ?_).trans (List.map_id _)
    have before := below place.1 (List.fst_mem_of_mem_zipIdx member)
    simp [makeRoom, Nat.not_lt.mpr before]
  have moved : (greater.zipIdx smaller.length).map (makeRoom key x) =
      greater.zipIdx (smaller.length + 1) := by
    rw [Nat.add_comm, ← List.map_snd_add_zipIdx_eq_zipIdx]
    refine List.map_congr_left fun place member => ?_
    have after := above place.1 (List.fst_mem_of_mem_zipIdx member)
    simp [makeRoom, after, Prod.map]
  rw [List.zipIdx_append, List.map_append, kept, Nat.zero_add, moved, List.zipIdx_append,
    List.zipIdx_cons, Nat.zero_add]
  exact List.perm_middle.symm

theorem countP_insert (below : ∀ y ∈ smaller, key y ≤ key x) (above : ∀ y ∈ greater, key x < key y) :
    (smaller ++ greater).countP (key · ≤ key x) = smaller.length := by
  have all : smaller.countP (key · ≤ key x) = smaller.length := by
    simpa [List.countP_eq_length] using below
  have none : greater.countP (key · ≤ key x) = 0 := by
    simpa [List.countP_eq_zero] using above
  rw [List.countP_append, all, none, Nat.add_zero]

end Insert

theorem ranks_are_places (key : α → Nat) (elements : List α) :
    ∃ sorted : List α, sorted.Perm elements ∧ sorted.Pairwise (key · ≤ key ·) ∧
      (elements.zip (ranks key elements)).Perm sorted.zipIdx := by
  induction elements with
  | nil => exact ⟨[], .nil, .nil, .nil⟩
  | cons x later ih =>
    obtain ⟨sorted, same, ascending, ranked⟩ := ih
    obtain ⟨smaller, greater, rfl, below, above⟩ := split_sorted ascending x
    refine ⟨smaller ++ x :: greater, List.perm_middle.trans (same.cons x),
      sorted_insert ascending below above, ?_⟩
    rw [ranks, List.zip_cons_cons, zip_makeRoom, ← same.countP_eq, countP_insert below above]
    exact ((ranked.map _).cons _).trans (zipIdx_insert below above)

end ArithCircuit
