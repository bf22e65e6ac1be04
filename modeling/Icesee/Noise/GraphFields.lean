import Icesee.Lib.GraphWalk
import Icesee.Lib.Masks
import Mathlib.Algebra.BigOperators.Field
import Mathlib.Analysis.SpecialFunctions.Exp
import Mathlib.Analysis.SpecialFunctions.Sqrt

/-!
Random fields on graphs.

`_graph_field_1d` and `_graph_field_2d` take unit draws at the points, smooth them with the
lazy walk on a graph, and scale the result to mean `0` and variance `1`. The graph is a chain
or a grid, or it is given by edges or by the nearest neighbours of the points.

* **The graphs.** `buildGridAdjacency2d_eq` says which entries the loops over the grid make;
  `Topology.weights` carries for all graphs that the weights are symmetric and not negative.
* **The fields.** `graphField_spec` says what the passes keep, for any number of passes, and
  what the scaling makes of the result.
-/

namespace Icesee.GraphFields

open GraphWalk Masks

/-! ### Adjacency matrices -/

section Adjacency

variable {K : Type} [Semiring K]

/-- `sp.csr_matrix((data, (rows, cols)))`, which adds the data of equal places. -/
def csrMatrix (entries : List (ℕ × ℕ × K)) (i j : ℕ) : K :=
  (entries.map fun e => if e.1 = i ∧ e.2.1 = j then e.2.2 else 0).sum

/-- The two entries of an edge of weight `1`. -/
def edge (p q : ℕ) : List (ℕ × ℕ × K) := [(p, q, 1), (q, p, 1)]

/-- `_build_chain_adjacency`. -/
def buildChainAdjacency (n : ℕ) : ℕ → ℕ → K :=
  csrMatrix ((List.range (n - 1)).flatMap fun i => edge i (i + 1))

/-- `idx`, of a point of the grid. -/
def idx (nx j i : ℕ) : ℕ := j * nx + i

/-- `_build_grid_adjacency_2d`. -/
def buildGridAdjacency2d (nx ny : ℕ) : ℕ → ℕ → K :=
  csrMatrix ((List.range ny).flatMap fun j => (List.range nx).flatMap fun i =>
    (if i + 1 < nx then edge (idx nx j i) (idx nx j (i + 1)) else []) ++
      if j + 1 < ny then edge (idx nx j i) (idx nx (j + 1) i) else [])

/-- `_build_connectivity_adjacency` of a list of edges; an index that is not in the matrix is
an error. -/
def buildConnectivityAdjacency (conn : List (ℤ × ℤ)) (n : ℕ) : Option (ℕ → ℕ → K) :=
  if ∀ e ∈ conn, (0 ≤ e.1 ∧ e.1 < n) ∧ 0 ≤ e.2 ∧ e.2 < n then
    some (csrMatrix ((conn.map fun e => (e.1.toNat, e.2.toNat, 1)) ++
      conn.map fun e => (e.2.toNat, e.1.toNat, 1)))
  else none

@[simp] lemma csrMatrix_nil (i j : ℕ) : csrMatrix ([] : List (ℕ × ℕ × K)) i j = 0 := rfl

lemma csrMatrix_append (l l' : List (ℕ × ℕ × K)) (i j : ℕ) :
    csrMatrix (l ++ l') i j = csrMatrix l i j + csrMatrix l' i j := by
  rw [csrMatrix, List.map_append, List.sum_append]
  rfl

/-- A loop adds the entries of its rounds. -/
lemma csrMatrix_flatMap (f : ℕ → List (ℕ × ℕ × K)) (n i j : ℕ) :
    csrMatrix ((List.range n).flatMap f) i j = ∑ k ∈ Finset.range n, csrMatrix (f k) i j := by
  induction n with
  | zero => rfl
  | succ n ih =>
      rw [List.range_succ, List.flatMap_append, csrMatrix_append, ih, Finset.sum_range_succ,
        List.flatMap_singleton]

lemma csrMatrix_edge (p q i j : ℕ) : csrMatrix (edge p q) i j =
    (if i = p ∧ j = q then 1 else 0) + (if j = p ∧ i = q then 1 else 0 : K) := by
  simp only [csrMatrix, edge, List.map_cons, List.map_nil, List.sum_cons, List.sum_nil, add_zero]
  refine congrArg₂ _ (if_congr ?_ rfl rfl) (if_congr ?_ rfl rfl)
  · rw [eq_comm, eq_comm (a := q)]
  · rw [eq_comm, eq_comm (a := p), and_comm]

/-- An edge that the loop makes under a condition. -/
lemma csrMatrix_ite_edge (g : Prop) [Decidable g] (p q i j : ℕ) :
    csrMatrix (if g then edge p q else []) i j =
      (if i = p ∧ j = q ∧ g then 1 else 0) + (if j = p ∧ i = q ∧ g then 1 else 0 : K) := by
  by_cases hg : g
  · simp only [hg, if_true, and_true, csrMatrix_edge]
  · simp [hg]

/-- **The chain**: the neighbours are the points that differ by `1`. -/
lemma buildChainAdjacency_eq {n i j : ℕ} (hi : i < n) (hj : j < n) :
    buildChainAdjacency n i j = (if i + 1 = j ∨ j + 1 = i then 1 else 0 : K) := by
  have hsum : ∀ {a b : ℕ}, a < n → b < n →
      (∑ k ∈ Finset.range (n - 1), if a = k ∧ b = k + 1 then 1 else 0 : K) =
        if a + 1 = b then 1 else 0 := by
    intro a b ha hb
    by_cases hab : a + 1 = b
    · rw [if_pos hab, Finset.sum_eq_single_of_mem a (Finset.mem_range.mpr (by omega))
        fun k _ hk => if_neg fun h => hk h.1.symm, if_pos ⟨rfl, hab.symm⟩]
    · rw [if_neg hab]
      exact Finset.sum_eq_zero fun k _ => if_neg fun h => hab (by omega)
  simp only [buildChainAdjacency, csrMatrix_flatMap, csrMatrix_edge, Finset.sum_add_distrib]
  rw [hsum hi hj, hsum hj hi]
  by_cases h : i + 1 = j
  · rw [if_pos h, if_neg (by omega), if_pos (.inl h), add_zero]
  · rw [if_neg h, zero_add]
    exact if_congr (by simp [h]) rfl rfl

/-- Two points of the grid are next to each other, in a row or in a column. -/
def GridNeighbours {nx ny : ℕ} (P Q : Fin ny × Fin nx) : Prop :=
  (P.1 = Q.1 ∧ (P.2.val + 1 = Q.2 ∨ Q.2.val + 1 = P.2)) ∨
    P.2 = Q.2 ∧ (P.1.val + 1 = Q.1 ∨ Q.1.val + 1 = P.1)

instance {nx ny : ℕ} (P Q : Fin ny × Fin nx) : Decidable (GridNeighbours P Q) :=
  inferInstanceAs (Decidable (_ ∨ _))

/-- Different points of the grid have different numbers. -/
lemma idx_inj {nx j i j' i' : ℕ} (hi : i < nx) (hi' : i' < nx) :
    idx nx j i = idx nx j' i' ↔ j = j' ∧ i = i' := by
  constructor
  · intro h
    have hdiv := congrArg (· / nx) h
    have hmod := congrArg (· % nx) h
    simp only [idx, Nat.mul_add_mod_self_right, Nat.mod_eq_of_lt hi, Nat.mod_eq_of_lt hi'] at hmod
    simp only [idx, Nat.mul_comm _ nx, Nat.mul_add_div (Nat.zero_lt_of_lt hi),
      Nat.div_eq_of_lt hi, Nat.div_eq_of_lt hi', Nat.add_zero] at hdiv
    exact ⟨hdiv, hmod⟩
  · rintro ⟨rfl, rfl⟩
    rfl

/-- The loops over the grid visit every point once. -/
lemma sum_grid {nx ny y x : ℕ} (hy : y < ny) (hx : x < nx) (c : ℕ → ℕ → Prop)
    [∀ j i, Decidable (c j i)] :
    (∑ j ∈ Finset.range ny, ∑ i ∈ Finset.range nx,
      if idx nx y x = idx nx j i ∧ c j i then 1 else 0 : K) = if c y x then 1 else 0 := by
  rw [Finset.sum_eq_single_of_mem y (Finset.mem_range.mpr hy),
    Finset.sum_eq_single_of_mem x (Finset.mem_range.mpr hx)]
  · exact if_congr (by simp) rfl rfl
  · intro i hi hne
    refine if_neg fun h => hne ?_
    exact ((idx_inj hx (Finset.mem_range.mp hi)).mp h.1).2.symm
  · intro j _ hne
    refine Finset.sum_eq_zero fun i hi => if_neg fun h => hne ?_
    exact ((idx_inj hx (Finset.mem_range.mp hi)).mp h.1).1.symm

/-- **The grid**: the loops over the grid make the entries of the points that are next to each
other, each of them once, and no others. -/
theorem buildGridAdjacency2d_eq {nx ny : ℕ} (P Q : Fin ny × Fin nx) :
    buildGridAdjacency2d nx ny (idx nx P.1 P.2) (idx nx Q.1 Q.2) =
      (if GridNeighbours P Q then 1 else 0 : K) := by
  obtain ⟨⟨y, hy⟩, ⟨x, hx⟩⟩ := P
  obtain ⟨⟨y', hy'⟩, ⟨x', hx'⟩⟩ := Q
  -- the edge to the right of a point, and the one to the next row
  have hright : ∀ {y x y' x' : ℕ}, x < nx → x' < nx →
      ((idx nx y' x' = idx nx y (x + 1) ∧ x + 1 < nx) ↔ y' = y ∧ x' = x + 1) := by
    intro y x y' x' hx hx'
    constructor
    · rintro ⟨h, hlt⟩
      exact (idx_inj hx' hlt).mp h
    · rintro ⟨rfl, rfl⟩
      exact ⟨rfl, hx'⟩
  have hnext : ∀ {y x y' x' : ℕ}, x < nx → x' < nx → y' < ny →
      ((idx nx y' x' = idx nx (y + 1) x ∧ y + 1 < ny) ↔ y' = y + 1 ∧ x' = x) := by
    intro y x y' x' hx hx' hy'
    constructor
    · rintro ⟨h, -⟩
      exact (idx_inj hx' hx).mp h
    · rintro ⟨rfl, rfl⟩
      exact ⟨rfl, hy'⟩
  simp only [buildGridAdjacency2d, csrMatrix_flatMap, csrMatrix_append, csrMatrix_ite_edge,
    Finset.sum_add_distrib, sum_grid hy hx, sum_grid hy' hx', hright hx hx', hright hx' hx,
    hnext hx hx' hy', hnext hx' hx hy, GridNeighbours, Fin.mk.injEq]
  -- a pair of points has at most one of the four edges
  split_ifs <;> first | (exfalso; omega) | simp

/-- The edges of a list, in both directions. -/
lemma buildConnectivityAdjacency_symm {conn : List (ℤ × ℤ)} {n : ℕ} {W : ℕ → ℕ → K}
    (h : buildConnectivityAdjacency conn n = some W) (i j : ℕ) : W i j = W j i := by
  rw [buildConnectivityAdjacency] at h
  split_ifs at h
  obtain rfl := Option.some.inj h
  have hswap : ∀ i j, csrMatrix (conn.map fun e => (e.1.toNat, e.2.toNat, (1 : K))) i j =
      csrMatrix (conn.map fun e => (e.2.toNat, e.1.toNat, 1)) j i := by
    intro i j
    simp only [csrMatrix, List.map_map, Function.comp_def]
    exact congrArg List.sum (List.map_congr_left fun e _ => if_congr and_comm rfl rfl)
  rw [csrMatrix_append, csrMatrix_append, hswap i j, hswap j i, add_comm]

end Adjacency

/-! ### Nearest neighbours -/

/-- What `tree.query(x, k=kq)` returns for the points, without the first neighbour of each:
the distances and the indices. -/
abbrev Query (n : ℕ) : Type := Fin n → List (ℝ × Fin n)

/-- `np.median`. -/
noncomputable def median (l : List ℝ) : ℝ :=
  let s := l.mergeSort fun a b => a ≤ b
  let m := s.length / 2
  if s.length % 2 = 1 then s.getD m 0 else (s.getD (m - 1) 0 + s.getD m 0) / (2 : ℕ)

variable {n : ℕ}

/-- `eps`: the median of the distances that are positive, and at least `1e-12`. -/
noncomputable def Query.eps (query : Query n) : ℝ :=
  let valid := ((List.finRange n).flatMap fun i => (query i).map Prod.fst).filter fun d => 0 < d
  max (if valid = [] then 1 else median valid) 1e-12

/-- The entries of the directed graph to the neighbours. -/
noncomputable def Query.entries (query : Query n) : List (ℕ × ℕ × ℝ) :=
  (List.finRange n).flatMap fun i =>
    ((query i).filter fun e => i ≠ e.2).map fun e =>
      (i.val, e.2.val, Real.exp (-(e.1 / query.eps) ^ 2))

/-- `_build_knn_adjacency`. -/
noncomputable def buildKnnAdjacency (query : Query n) (i j : ℕ) : ℝ :=
  1 / (2 : ℕ) * (csrMatrix query.entries i j + csrMatrix query.entries j i)

/-! ### The graphs -/

/-- Entries that are not negative. -/
lemma csrMatrix_nonneg {l : List (ℕ × ℕ × ℝ)} (h : ∀ e ∈ l, 0 ≤ e.2.2) (i j : ℕ) :
    0 ≤ csrMatrix l i j := by
  refine List.sum_nonneg fun x hx => ?_
  obtain ⟨e, he, rfl⟩ := List.mem_map.mp hx
  split_ifs
  · exact h e he
  · exact le_rfl

/-- What the graph is built from: nothing else than the points, in one or two dimensions, a
list of edges with indices of the points, the nearest neighbours, or weights that are given. -/
inductive Topology : ℕ → Type
  | chain (n : ℕ) : Topology n
  | grid (nx ny : ℕ) : Topology (nx * ny)
  | edges {n : ℕ} (conn : List (ℤ × ℤ))
      (h : ∀ e ∈ conn, (0 ≤ e.1 ∧ e.1 < n) ∧ 0 ≤ e.2 ∧ e.2 < n) : Topology n
  | coords {n : ℕ} (query : Query n) : Topology n
  | sparse {n : ℕ} (W : Weights (Fin n) ℝ) : Topology n

namespace Topology

/-- The matrix `W`. -/
noncomputable def adjacency : {n : ℕ} → Topology n → Fin n → Fin n → ℝ
  | _, chain n => fun i j => buildChainAdjacency n i j
  | _, grid nx ny => fun i j => buildGridAdjacency2d nx ny i j
  | n, edges conn _ => fun i j => ((buildConnectivityAdjacency conn n).getD fun _ _ => 0) i j
  | _, coords query => fun i j => buildKnnAdjacency query i j
  | _, sparse W => W.w

/-- Every point of the grid has its row and its column. -/
lemma exists_idx {nx ny : ℕ} (p : Fin (nx * ny)) :
    ∃ P : Fin ny × Fin nx, p.val = idx nx P.1 P.2 := by
  have hpos : 0 < nx := Nat.pos_of_mul_pos_right (Nat.zero_lt_of_lt p.2)
  refine ⟨(⟨p / nx, Nat.div_lt_of_lt_mul p.2⟩, ⟨p % nx, Nat.mod_lt _ hpos⟩), ?_⟩
  exact (Nat.div_add_mod' p.val nx).symm

lemma adjacency_symm (t : Topology n) (i j : Fin n) : t.adjacency i j = t.adjacency j i := by
  cases t with
  | chain =>
      simp only [adjacency]
      rw [buildChainAdjacency_eq i.2 j.2, buildChainAdjacency_eq j.2 i.2]
      exact if_congr or_comm rfl rfl
  | grid nx ny =>
      obtain ⟨P, hP⟩ := exists_idx i
      obtain ⟨Q, hQ⟩ := exists_idx j
      simp only [adjacency, hP, hQ]
      rw [buildGridAdjacency2d_eq, buildGridAdjacency2d_eq]
      refine if_congr ?_ rfl rfl
      simp only [GridNeighbours, eq_comm (a := P.1), eq_comm (a := P.2), or_comm]
  | edges conn h =>
      obtain ⟨W, hW⟩ : ∃ W : ℕ → ℕ → ℝ, buildConnectivityAdjacency conn n = some W :=
        ⟨_, if_pos h⟩
      simp only [adjacency, hW]
      exact buildConnectivityAdjacency_symm hW i j
  | coords query =>
      simp only [adjacency, buildKnnAdjacency]
      rw [add_comm]
  | sparse W => exact W.symm i j

lemma adjacency_nonneg (t : Topology n) (i j : Fin n) : 0 ≤ t.adjacency i j := by
  -- all entries are `1`, but for the weights of the neighbours and the given ones
  cases t with
  | chain =>
      simp only [adjacency]
      rw [buildChainAdjacency_eq i.2 j.2]
      split_ifs <;> norm_num
  | grid nx ny =>
      obtain ⟨P, hP⟩ := exists_idx i
      obtain ⟨Q, hQ⟩ := exists_idx j
      simp only [adjacency, hP, hQ]
      rw [buildGridAdjacency2d_eq]
      split_ifs <;> norm_num
  | edges conn h =>
      simp only [adjacency, buildConnectivityAdjacency, if_pos h]
      refine csrMatrix_nonneg (fun e he => ?_) i j
      rcases List.mem_append.mp he with he | he
      all_goals
        obtain ⟨-, -, rfl⟩ := List.mem_map.mp he
        exact zero_le_one
  | coords query =>
      have hentries : ∀ e ∈ query.entries, 0 ≤ e.2.2 := by
        intro e he
        obtain ⟨i, -, he⟩ := List.mem_flatMap.mp he
        obtain ⟨-, -, rfl⟩ := List.mem_map.mp he
        exact (Real.exp_pos _).le
      simp only [adjacency, buildKnnAdjacency]
      have h₁ := csrMatrix_nonneg hentries i j
      have h₂ := csrMatrix_nonneg hentries j i
      positivity
  | sparse W => exact W.nonneg i j

/-- **The graphs that the code builds** are symmetric and not negative. -/
noncomputable def weights (t : Topology n) : Weights (Fin n) ℝ where
  w := t.adjacency
  symm := t.adjacency_symm
  nonneg := t.adjacency_nonneg

/-- `P`, the rows of the weights over their sums. -/
noncomputable def P (t : Topology n) (i j : Fin n) : ℝ := 1 / t.weights.degSafe i * t.adjacency i j

/-- A pass of the loop. -/
noncomputable def onePass (t : Topology n) (blend : ℝ) (q : Fin n → ℝ) (i : Fin n) : ℝ :=
  (1 - blend) * q i + blend * ∑ j, t.P i j * q j

lemma onePass_eq (t : Topology n) (blend : ℝ) : t.onePass blend = t.weights.lazyWalk blend := by
  funext q i
  have hmean : ∑ j, t.P i j * q j = t.weights.walk q i := by
    rw [Weights.walk, Finset.sum_div]
    exact Finset.sum_congr rfl fun j _ => by rw [P, mul_assoc, one_div_mul_eq_div]; rfl
  rw [onePass, hmean, Weights.lazyWalk]

end Topology

/-! ### The field -/

/-- `np.mean`. -/
noncomputable def mean (q : Fin n → ℝ) : ℝ := (∑ i, q i) / n

/-- `q - np.mean(q)`. -/
noncomputable def center (q : Fin n → ℝ) (i : Fin n) : ℝ := q i - mean q

/-- `np.std`. -/
noncomputable def std (q : Fin n → ℝ) : ℝ := √(mean fun i => center q i ^ 2)

/-- `passes`; without a number of passes it is `"auto"`. -/
noncomputable def passes (n : ℕ) (numPasses : Option ℤ) : ℤ :=
  numPasses.getD (min (max (roundHalfEven (0.12 * √(max n 4 : ℕ))) 3) 25)

/-- The field after the passes. -/
noncomputable def smoothed (t : Topology n) (blend : ℝ) (numPasses : Option ℤ)
    (draw : Fin n → ℝ) : Fin n → ℝ :=
  (t.onePass blend)^[(passes n numPasses).toNat] (center draw)

/-- The scaling at the end. -/
noncomputable def standardize (q : Fin n → ℝ) (i : Fin n) : ℝ :=
  if 0 < std (center q) then center q i / std (center q) else center q i

/-- `_graph_field_1d` and `_graph_field_2d`. -/
noncomputable def graphField (t : Topology n) (blend : ℝ) (numPasses : Option ℤ)
    (draw : Fin n → ℝ) : Fin n → ℝ :=
  standardize (smoothed t blend numPasses draw)

variable {q : Fin n → ℝ}

lemma sum_center (q : Fin n → ℝ) : ∑ i, center q i = 0 := by
  rcases Nat.eq_zero_or_pos n with rfl | hn
  · exact Fin.sum_univ_zero _
  · have hne : (n : ℝ) ≠ 0 := by positivity
    simp only [center, mean, Finset.sum_sub_distrib, Finset.sum_const, Finset.card_univ,
      Fintype.card_fin, nsmul_eq_mul]
    field_simp
    ring

/-- The draws have no mean, and a second mean has nothing to take. -/
lemma center_center (q : Fin n → ℝ) : center (center q) = center q := by
  funext i
  rw [center, mean, sum_center, zero_div, sub_zero]

lemma std_center (q : Fin n → ℝ) : std (center q) = std q := by
  rw [std, std, center_center]

/-- The squares of the differences from the mean. -/
lemma mul_std_sq (q : Fin n → ℝ) : n * std q ^ 2 = ∑ i, center q i ^ 2 := by
  have hnonneg : 0 ≤ ∑ i, center q i ^ 2 := Finset.sum_nonneg fun i _ => sq_nonneg _
  rcases Nat.eq_zero_or_pos n with rfl | hn
  · simp
  · have hne : (n : ℝ) ≠ 0 := by positivity
    rw [std, mean, Real.sq_sqrt (div_nonneg hnonneg (Nat.cast_nonneg n))]
    exact mul_div_cancel₀ _ hne

/-- A constant field is its mean. -/
lemma center_eq_zero (h : ∀ i j, q i = q j) (i : Fin n) : center q i = 0 := by
  have hn : (n : ℝ) ≠ 0 := Nat.cast_ne_zero.mpr (Nat.ne_of_gt (Nat.zero_lt_of_lt i.2))
  rw [center, mean, Finset.sum_congr rfl fun j _ => h j i, Finset.sum_const, Finset.card_univ,
    Fintype.card_fin, nsmul_eq_mul, mul_div_cancel_left₀ _ hn, sub_self]

/-- A field without a deviation is constant. -/
lemma std_pos_iff : 0 < std q ↔ ∃ i j, q i ≠ q j := by
  constructor
  · intro h
    by_contra hconst
    push Not at hconst
    simp [std, mean, center_eq_zero hconst] at h
  · rintro ⟨i, j, hij⟩
    by_contra hstd
    have hzero : std q = 0 := le_antisymm (not_lt.mp hstd) (Real.sqrt_nonneg _)
    have hsum : ∑ k, center q k ^ 2 = 0 := by
      rw [← mul_std_sq, hzero]
      ring
    have hcenter : ∀ k, center q k = 0 := by
      intro k
      have h := (Finset.sum_eq_zero_iff_of_nonneg fun l _ => sq_nonneg (center q l)).mp hsum k
        (Finset.mem_univ k)
      exact pow_eq_zero_iff two_ne_zero |>.mp h
    exact hij ((sub_eq_zero.mp (hcenter i)).trans (sub_eq_zero.mp (hcenter j)).symm)

/-- What the scaling makes of a field: the differences are kept up to a factor, the mean is
`0`, and the variance is `1` if the field is not constant. -/
structure Standardized (q out : Fin n → ℝ) : Prop where
  mean : ∑ i, out i = 0
  variance : (∃ i j, q i ≠ q j) → ∑ i, out i ^ 2 = n
  constant : (∀ i j, q i = q j) → ∀ i, out i = 0
  differences : ∃ a > 0, ∀ i j, out i - out j = a * (q i - q j)

lemma standardize_spec (q : Fin n → ℝ) : Standardized q (standardize q) := by
  have hval : ∀ i, standardize q i = if 0 < std q then center q i / std q else center q i :=
    fun i => by rw [standardize, std_center]
  by_cases h : 0 < std q
  · simp only [h, if_true] at hval
    refine ⟨?_, fun _ => ?_, fun hconst => ?_, 1 / std q, by positivity, fun i j => ?_⟩
    · rw [Finset.sum_congr rfl fun i _ => hval i, ← Finset.sum_div, sum_center, zero_div]
    · rw [Finset.sum_congr rfl fun i _ => by rw [hval i, div_pow], ← Finset.sum_div,
        ← mul_std_sq, mul_div_cancel_right₀ _ (by positivity)]
    · obtain ⟨i, j, hij⟩ := std_pos_iff.mp h
      exact absurd (hconst i j) hij
    · rw [hval, hval, center, center]
      ring
  · have hconst : ∀ i j, q i = q j := by
      by_contra hne
      push Not at hne
      exact h (std_pos_iff.mpr hne)
    have hzero : ∀ i, standardize q i = 0 :=
      fun i => by rw [hval, if_neg h, center_eq_zero hconst]
    refine ⟨?_, fun ⟨i, j, hij⟩ => absurd (hconst i j) hij, fun _ => hzero, 1, one_pos, ?_⟩
    · exact Finset.sum_eq_zero fun i _ => hzero i
    · intro i j
      rw [hzero, hzero, hconst i j]
      ring

/-- **The fields**: any number of passes keeps the sum weighted with the degrees and every
bound on the absolute values of the centred draws, and makes the field no rougher along the
edges; then the result is scaled. -/
theorem graphField_spec (t : Topology n) {blend : ℝ} (hblend : 0 ≤ blend) (hblend1 : blend ≤ 1)
    (numPasses : Option ℤ) (draw : Fin n → ℝ) :
    Weights.Smoother t.weights (center draw) (smoothed t blend numPasses draw) ∧
      Standardized (smoothed t blend numPasses draw) (graphField t blend numPasses draw) := by
  refine ⟨?_, standardize_spec _⟩
  rw [smoothed, t.onePass_eq]
  exact Weights.Smoother.iterate hblend hblend1 _ _

theorem graphField_grid :
    Weights.Smoother (Topology.grid 2 2).weights (center fun i => (i.val : ℝ))
        (smoothed (.grid 2 2) 0.55 none fun i => (i.val : ℝ)) ∧
      Standardized (smoothed (.grid 2 2) 0.55 none fun i => (i.val : ℝ))
        (graphField (.grid 2 2) 0.55 none fun i => (i.val : ℝ)) :=
  graphField_spec (.grid 2 2) (by norm_num) (by norm_num) none _

end Icesee.GraphFields
