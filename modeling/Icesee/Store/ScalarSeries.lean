import Mathlib.Data.List.Basic
import Mathlib.Data.List.TakeWhile
import Mathlib.Data.List.Perm.Basic
import Mathlib.Data.List.Sort
import Icesee.Lib.Decimal
import Icesee.Lib.Keyed

/-!
`read_scalar_timeseries`: the values of scalar series, from datasets that are named by a series
and a time.

A dataset is taken for one of a series if its name begins with the name of the series and an
underscore, and its time is the first number in the name. `number_name` and
`prefix_name_iff` say what this finds, and `readScalarTimeseries_iff` when it is the series.
-/

namespace Icesee

open Decimal

variable {α : Type}

/-! ### The reader -/

/-- The characters that `\d` matches, with the digits that `int` reads. -/
structure DecimalTable where
  decimal : Char → Option ℕ
  ascii : ∀ c, c.isDigit → decimal c = some (c.toNat - '0'.toNat)
  underscore : decimal '_' = none

/-- `re.findall(r"\d+", name)[0]`, if there is one. -/
def DecimalTable.firstRun (tab : DecimalTable) (name : List Char) : List Char :=
  (name.dropWhile fun c => (tab.decimal c).isNone).takeWhile fun c => (tab.decimal c).isSome

/-- The first number in a name, as `int` reads it. -/
def DecimalTable.number (tab : DecimalTable) (name : List Char) : Option ℕ :=
  let run := tab.firstRun name
  if run = [] then none
  else some (run.foldl (fun n c => 10 * n + (tab.decimal c).getD 0) 0)

/-- `l[order]`. -/
def fancy {β : Type} (l : List β) (order : List ℕ) : List β := order.filterMap fun i => l[i]?

/-- `np.argsort`: some order of the positions in which the values are sorted. -/
structure Argsort where
  argsort : List ℕ → List ℕ
  perm : ∀ l, (argsort l).Perm (List.range l.length)
  sorted : ∀ l, (fancy l (argsort l)).Pairwise (· ≤ ·)

/-- `times` and `scalars` of one series. -/
structure Series (α : Type) where
  times : List ℕ := []
  scalars : List α := []

/-- The loop over the names of a file with their values. A name without a number raises. -/
def readDatasets (tab : DecimalTable) (scalarNames : List String) (file : List (String × α))
    (read : String → Series α) : Option (String → Series α) :=
  file.foldlM (fun read (name, value) =>
    scalarNames.foldlM (fun read key =>
      if key.toList ++ ['_'] <+: name.toList then do
        let k ← tab.number name.toList
        return Function.update read key
          ⟨(read key).times ++ [k], (read key).scalars ++ [value]⟩
      else return read) read) read

/-- The loop that sorts the lists of every series. -/
def sortSeries (sort : Argsort) (scalarNames : List String) (read : String → Series α) :
    String → Series α :=
  scalarNames.foldl (fun read key =>
    let order := sort.argsort (read key).times
    Function.update read key
      ⟨fancy (read key).times order, fancy (read key).scalars order⟩) read

/-- `read_scalar_timeseries`. -/
def readScalarTimeseries (tab : DecimalTable) (sort : Argsort) (file : List (String × α))
    (scalarNames : List String) : Option (String → Series α) :=
  (readDatasets tab scalarNames file fun _ => {}).map (sortSeries sort scalarNames)

/-! ### What should come out -/

/-- A value of a series at a time. -/
structure Dataset (α : Type) where
  series : String
  index : ℕ
  value : α

/-- The name of a dataset. -/
def Dataset.name (d : Dataset α) : String :=
  String.ofList (d.series.toList ++ '_' :: digits d.index)

/-- The datasets of a series, with their times. -/
def ownEntries (file : List (Dataset α)) (s : String) : List (ℕ × α) :=
  (file.filter fun d => d.series = s).map fun d => (d.index, d.value)

/-- The values of a series and their times, sorted by time. -/
def IsSeries (file : List (Dataset α)) (s : String) (r : Series α) : Prop :=
  ∃ entries : List (ℕ × α), entries.Perm (ownEntries file s) ∧
    (entries.map Prod.fst).Pairwise (· ≤ ·) ∧
    r.times = entries.map Prod.fst ∧ r.scalars = entries.map Prod.snd

/-! ### Names -/

namespace DecimalTable

variable (tab : DecimalTable)

lemma decimal_of_mem_digits {k : ℕ} {c : Char} (hc : c ∈ digits k) :
    tab.decimal c = some (c.toNat - '0'.toNat) := tab.ascii c (isDigit_of_mem_digits hc)

/-- A numeral is a run of digits. -/
lemma firstRun_digits (k : ℕ) : tab.firstRun (digits k) = digits k := by
  have hsome : ∀ c ∈ digits k, (tab.decimal c).isSome = true := fun c hc => by
    rw [tab.decimal_of_mem_digits hc]
    rfl
  have hdrop : (digits k).dropWhile (fun c => (tab.decimal c).isNone) = digits k := by
    rw [← List.cons_head_tail (digits_ne_nil k), List.dropWhile_cons_of_neg]
    rw [tab.decimal_of_mem_digits (List.head_mem _)]
    exact Bool.false_ne_true
  rw [firstRun, hdrop]
  exact List.takeWhile_eq_self_iff.mpr hsome

/-- The numeral of a number is read as the number. -/
lemma number_digits (k : ℕ) : tab.number (digits k) = some k := by
  have hval : (digits k).foldl (fun n c => 10 * n + (tab.decimal c).getD 0) 0 = k := by
    calc _ = Nat.ofDigitChars 10 (digits k) 0 := List.foldl_ext _ _ _ fun n c hc => by
          rw [tab.decimal_of_mem_digits hc, Option.getD_some]
      _ = k := value_digits k
  rw [number, firstRun_digits]
  simp only [if_neg (digits_ne_nil k), hval]

/-- The first run of a name is in the name of the series, or the numeral. -/
lemma firstRun_name (s : List Char) (k : ℕ) : tab.firstRun (s ++ '_' :: digits k) =
    if tab.firstRun s = [] then digits k else tab.firstRun s := by
  have hnone : (tab.decimal '_').isNone = true := by rw [tab.underscore]; rfl
  rw [firstRun, List.dropWhile_append]
  -- is there a digit in the name of the series?
  cases hdrop : s.dropWhile fun c => (tab.decimal c).isNone with
  | nil =>
      have hs : tab.firstRun s = [] := by rw [firstRun, hdrop]; rfl
      rw [if_pos hs, List.isEmpty_nil, if_pos rfl,
        List.dropWhile_cons_of_pos (p := fun c => (tab.decimal c).isNone) hnone]
      exact tab.firstRun_digits k
  | cons c t =>
      have hc : (tab.decimal c).isSome = true := by
        have hhead := List.head?_dropWhile_not (fun c => (tab.decimal c).isNone) s
        rw [hdrop] at hhead
        simpa using hhead
      have hs : tab.firstRun s = (c :: t).takeWhile fun c => (tab.decimal c).isSome := by
        rw [firstRun, hdrop]
      have hne : tab.firstRun s ≠ [] := by
        rw [hs, List.takeWhile_cons_of_pos (p := fun c => (tab.decimal c).isSome) hc]
        exact List.cons_ne_nil _ _
      have hstop : ('_' :: digits k).takeWhile (fun c => (tab.decimal c).isSome) = [] := by
        rw [List.takeWhile_cons_of_neg]
        rw [tab.underscore]
        exact Bool.false_ne_true
      rw [if_neg hne, hs, List.isEmpty_cons, if_neg Bool.false_ne_true, List.takeWhile_append,
        hstop, List.append_nil]
      split_ifs with hlen
      · exact ((List.takeWhile_prefix _).eq_of_length hlen).symm
      · rfl

/-- **The number of a name** is the one in the name of the series, if there is one. -/
lemma number_name (s : List Char) (k : ℕ) :
    tab.number (s ++ '_' :: digits k) = some ((tab.number s).getD k) := by
  by_cases hs : tab.firstRun s = []
  · have hnum : tab.number s = none := by rw [number]; exact if_pos hs
    have hdigits := tab.number_digits k
    rw [number, tab.firstRun_digits] at hdigits
    rw [number, firstRun_name, if_pos hs, hnum]
    exact hdigits
  · have hnum : tab.number s =
        some ((tab.firstRun s).foldl (fun n c => 10 * n + (tab.decimal c).getD 0) 0) := by
      rw [number]
      exact if_neg hs
    rw [number, firstRun_name, if_neg hs, hnum]
    exact if_neg hs

end DecimalTable

/-- **The datasets that are found** for a series are its own and those of the series whose names
begin with its name and an underscore. -/
lemma prefix_name_iff (s t : List Char) (k : ℕ) :
    s ++ ['_'] <+: t ++ '_' :: digits k ↔ t = s ∨ s ++ ['_'] <+: t := by
  constructor
  · rintro ⟨rest, h⟩
    rw [List.append_assoc, List.singleton_append, List.append_eq_append_iff] at h
    rcases h with ⟨u, rfl, hu⟩ | ⟨u, rfl, hu⟩
    · cases u with
      | nil => exact .inl (List.append_nil s)
      | cons c u =>
          obtain ⟨rfl, -⟩ := List.cons.inj hu
          exact .inr ⟨u, by simp⟩
    · cases u with
      | nil => exact .inl (List.append_nil t).symm
      | cons c u =>
          obtain ⟨-, hdigits⟩ := List.cons.inj hu
          have hmem : '_' ∈ digits k := by
            rw [hdigits]
            simp
          exact absurd (isDigit_of_mem_digits hmem) (by decide)
  · rintro (rfl | h)
    · exact ⟨digits k, by simp⟩
    · exact h.trans (List.prefix_append _ _)

/-! ### Reading -/

/-- What is found for a series, before it is sorted. -/
def foundEntries (tab : DecimalTable) (file : List (Dataset α)) (s : String) : List (ℕ × α) :=
  (file.filter fun d => s.toList ++ ['_'] <+: d.name.toList).map fun d =>
    ((tab.number d.series.toList).getD d.index, d.value)

lemma fancy_map {β γ : Type} (f : β → γ) (l : List β) (order : List ℕ) :
    fancy (l.map f) order = (fancy l order).map f := by
  rw [fancy, fancy, List.map_filterMap]
  exact congrArg (fun g => order.filterMap g) (funext fun i => List.getElem?_map)

/-- A list in another order. -/
lemma fancy_perm {β : Type} {l : List β} {order : List ℕ}
    (h : order.Perm (List.range l.length)) : (fancy l order).Perm l := by
  have hall : ∀ l : List β, fancy l (List.range l.length) = l := by
    intro l
    induction l with
    | nil => rfl
    | cons b l ih =>
        rw [fancy, List.length_cons, List.range_succ_eq_map,
          List.filterMap_cons_some (f := fun i => (b :: l)[i]?) (b := b) rfl, List.filterMap_map]
        exact congrArg (b :: ·) ih
  exact (h.filterMap _).trans (.of_eq (hall l))

/-- What one dataset adds to the lists of a series. -/
def found (tab : DecimalTable) (d : Dataset α) (s : String) (r : Series α) : Series α :=
  if s.toList ++ ['_'] <+: d.name.toList then
    ⟨r.times ++ [(tab.number d.series.toList).getD d.index], r.scalars ++ [d.value]⟩
  else r

/-- The loop over the datasets: a series has what is found for it. -/
lemma readDatasets_eq (tab : DecimalTable) (file : List (Dataset α)) {scalarNames : List String}
    (hnames : scalarNames.Nodup) (read : String → Series α) :
    ∃ read', readDatasets tab scalarNames (file.map fun d => (d.name, d.value)) read = some read' ∧
      ∀ s ∈ scalarNames, read' s = ⟨(read s).times ++ (foundEntries tab file s).map Prod.fst,
        (read s).scalars ++ (foundEntries tab file s).map Prod.snd⟩ := by
  induction file generalizing read with
  | nil => exact ⟨read, rfl, fun s _ => by simp [foundEntries]⟩
  | cons d file ih =>
      have hbody : ∀ (read : String → Series α) (key : String),
          (if key.toList ++ ['_'] <+: d.name.toList then do
            let k ← tab.number d.name.toList
            return Function.update read key
              ⟨(read key).times ++ [k], (read key).scalars ++ [d.value]⟩
          else return read) = some (Function.update read key (found tab d key (read key))) := by
        intro read key
        rw [found]
        split_ifs with h
        · rw [Dataset.name, String.toList_ofList, tab.number_name]
          rfl
        · rw [Function.update_eq_self]
          rfl
      -- every series is updated once for this dataset
      obtain ⟨read', hread, hseries⟩ := ih (scalarNames.foldl
        (fun read key => Function.update read key (found tab d key (read key))) read)
      refine ⟨read', ?_, fun s hs => ?_⟩
      · rw [readDatasets, List.map_cons, List.foldlM_cons]
        simp only [hbody]
        rw [← hread]
        exact congrArg (· >>= fun read => readDatasets tab scalarNames _ read) List.foldlM_pure
      · rw [hseries s hs, Keyed.foldl_update_apply hnames, if_pos hs, found, foundEntries,
          foundEntries, List.filter_cons]
        simp only [decide_eq_true_eq]
        split_ifs <;> simp

/-- **The loops** put what is found for every series into its lists, and sort them. -/
lemma readScalarTimeseries_eq (tab : DecimalTable) (sort : Argsort) (file : List (Dataset α))
    {scalarNames : List String} (hnames : scalarNames.Nodup) :
    ∃ read, readScalarTimeseries tab sort (file.map fun d => (d.name, d.value)) scalarNames =
        some read ∧ ∀ s ∈ scalarNames, ∃ entries : List (ℕ × α),
          entries.Perm (foundEntries tab file s) ∧ (entries.map Prod.fst).Pairwise (· ≤ ·) ∧
          read s = ⟨entries.map Prod.fst, entries.map Prod.snd⟩ := by
  obtain ⟨read, hread, hseries⟩ := readDatasets_eq tab file hnames fun _ => {}
  refine ⟨sortSeries sort scalarNames read, ?_, fun s hs => ?_⟩
  · rw [readScalarTimeseries, hread]
    rfl
  · set order := sort.argsort ((foundEntries tab file s).map Prod.fst) with horder
    have hperm : order.Perm (List.range (foundEntries tab file s).length) := by
      have hlen := sort.perm ((foundEntries tab file s).map Prod.fst)
      rwa [List.length_map] at hlen
    refine ⟨fancy (foundEntries tab file s) order, fancy_perm hperm, ?_, ?_⟩
    · rw [← fancy_map]
      exact sort.sorted _
    · refine (Keyed.foldl_update_apply (f := fun _ (r : Series α) =>
        ⟨fancy r.times (sort.argsort r.times), fancy r.scalars (sort.argsort r.times)⟩)
        hnames read s).trans ?_
      rw [if_pos hs, hseries s hs]
      simp only [List.nil_append, fancy_map, ← horder]

/-! ### When the series come out -/

/-- No other series of the file has a name that begins with the name of the series and an
underscore, and the number in its name, if there is one, is the index of all its datasets. -/
structure Unambiguous (tab : DecimalTable) (file : List (Dataset α)) (s : String) : Prop where
  others : ∀ d ∈ file, d.series ≠ s → ¬s.toList ++ ['_'] <+: d.series.toList
  number : ∀ d ∈ file, d.series = s → ∀ k, tab.number s.toList = some k → d.index = k

/-- **What is found** for a series is the series exactly if its name is unambiguous. -/
lemma foundEntries_perm_iff (tab : DecimalTable) (file : List (Dataset α)) (s : String) :
    (foundEntries tab file s).Perm (ownEntries file s) ↔ Unambiguous tab file s := by
  have hstart : ∀ d : Dataset α, s.toList ++ ['_'] <+: d.name.toList ↔
      d.series = s ∨ s.toList ++ ['_'] <+: d.series.toList := by
    intro d
    rw [Dataset.name, String.toList_ofList, prefix_name_iff, String.toList_inj]
  constructor
  · intro h
    -- what is found contains the own entries, so they are the same if they are as many
    have hfilter : file.filter (fun d => d.series = s) =
        file.filter fun d => s.toList ++ ['_'] <+: d.name.toList := by
      have hlen := h.length_eq
      rw [foundEntries, ownEntries, List.length_map, List.length_map] at hlen
      refine List.Sublist.eq_of_length ?_ hlen.symm
      refine List.monotone_filter_right file fun d hd => decide_eq_true ?_
      exact (hstart d).mpr (.inl (of_decide_eq_true hd))
    constructor
    · intro d hd hne hpre
      have hmem : d ∈ file.filter fun d => s.toList ++ ['_'] <+: d.name.toList :=
        List.mem_filter.mpr ⟨hd, decide_eq_true ((hstart d).mpr (.inr hpre))⟩
      rw [← hfilter] at hmem
      exact hne (of_decide_eq_true (List.mem_filter.mp hmem).2)
    · intro d hd hs k hk
      have hown : (d.index, d.value) ∈ ownEntries file s :=
        List.mem_map_of_mem (List.mem_filter.mpr ⟨hd, decide_eq_true hs⟩)
      obtain ⟨d', hd', heq⟩ := List.mem_map.mp (h.mem_iff.mpr hown)
      rw [← hfilter] at hd'
      have hs' : d'.series = s := of_decide_eq_true (List.mem_filter.mp hd').2
      rw [hs', hk] at heq
      exact (Prod.ext_iff.mp heq).1.symm
  · rintro ⟨hothers, hnumber⟩
    rw [foundEntries, ownEntries]
    -- no other series begins with the name
    have hfilter : file.filter (fun d => s.toList ++ ['_'] <+: d.name.toList) =
        file.filter fun d => d.series = s := by
      refine List.filter_congr fun d hd => decide_eq_decide.mpr ?_
      rw [hstart]
      exact or_iff_left_of_imp fun hpre => by_contra fun hne => hothers d hd hne hpre
    rw [hfilter]
    refine .of_eq (List.map_congr_left fun d hd => ?_)
    obtain ⟨hd, hs⟩ := List.mem_filter.mp hd
    have hs := of_decide_eq_true hs
    rw [hs]
    cases hk : tab.number s.toList with
    | none => rfl
    | some k => rw [hnumber d hd hs k hk]; rfl

/-- **A series** that is asked for comes out exactly if its name is unambiguous. -/
lemma isSeries_iff {tab : DecimalTable} {sort : Argsort} {file : List (Dataset α)}
    {scalarNames : List String} (hnames : scalarNames.Nodup) {read : String → Series α}
    (hread : readScalarTimeseries tab sort (file.map fun d => (d.name, d.value)) scalarNames =
      some read) {s : String} (hs : s ∈ scalarNames) :
    IsSeries file s (read s) ↔ Unambiguous tab file s := by
  obtain ⟨read', hread', hseries⟩ := readScalarTimeseries_eq tab sort file hnames
  obtain rfl := Option.some.inj (hread'.symm.trans hread)
  obtain ⟨entries, hperm, hsorted, hs⟩ := hseries s hs
  rw [← foundEntries_perm_iff, hs]
  constructor
  · rintro ⟨entries', hperm', -, htimes, hscalars⟩
    have heq : entries = entries' :=
      (List.zip_of_prod htimes hscalars).trans (List.zip_of_prod rfl rfl).symm
    exact hperm.symm.trans (heq ▸ hperm')
  · exact fun h => ⟨entries, hperm.trans h, hsorted, rfl, rfl⟩

/-- **The reader** returns every series that is asked for exactly if their names are
unambiguous. -/
theorem readScalarTimeseries_iff (tab : DecimalTable) (sort : Argsort) (file : List (Dataset α))
    {scalarNames : List String} (hnames : scalarNames.Nodup) :
    (∃ read, readScalarTimeseries tab sort (file.map fun d => (d.name, d.value)) scalarNames =
        some read ∧ ∀ s ∈ scalarNames, IsSeries file s (read s)) ↔
      ∀ s ∈ scalarNames, Unambiguous tab file s := by
  obtain ⟨read, hread, -⟩ := readScalarTimeseries_eq tab sort file hnames
  constructor
  · rintro ⟨read', hread', h⟩ s hs
    exact (isSeries_iff hnames hread' hs).mp (h s hs)
  · exact fun h => ⟨read, hread, fun s hs => (isSeries_iff hnames hread hs).mpr (h s hs)⟩

/-! ### A name with a number -/

/-- The digits of ASCII. -/
def asciiTable : DecimalTable where
  decimal c := if c.isDigit then some (c.toNat - '0'.toNat) else none
  ascii _ h := if_pos h
  underscore := by decide

/-- Sorting the positions by their values. -/
def mergeArgsort : Argsort where
  argsort l := (List.range l.length).mergeSort fun i j => l.getD i 0 ≤ l.getD j 0
  perm _ := List.mergeSort_perm _ _
  sorted l := by
    have hsorted : ((List.range l.length).mergeSort fun i j => l.getD i 0 ≤ l.getD j 0).Pairwise
        fun i j => decide (l.getD i 0 ≤ l.getD j 0) :=
      List.pairwise_mergeSort
        (fun _ _ _ hij hjk => decide_eq_true
          ((of_decide_eq_true hij).trans (of_decide_eq_true hjk)))
        (fun _ _ => by simpa using Nat.le_total _ _) _
    rw [fancy, List.pairwise_filterMap]
    refine hsorted.imp fun {i j} hij x hx y hy => ?_
    rw [List.getD_eq_getElem?_getD, List.getD_eq_getElem?_getD, hx, hy] at hij
    exact of_decide_eq_true hij

/-- The values of `H` at the times `3` and `1` are returned in order. -/
theorem readScalarTimeseries_iff_plain :
    ∃ read, readScalarTimeseries asciiTable mergeArgsort
        ([⟨"H", 3, 7⟩, ⟨"H", 1, 5⟩].map fun d : Dataset ℕ => (d.name, d.value)) ["H"] = some read ∧
      ∀ s ∈ ["H"], IsSeries [⟨"H", 3, 7⟩, ⟨"H", 1, 5⟩] s (read s) := by
  refine (readScalarTimeseries_iff asciiTable mergeArgsort _ (by decide)).mpr fun s hs => ?_
  obtain rfl := List.mem_singleton.mp hs
  refine ⟨by decide, fun d hd hs k hk => ?_⟩
  have hnone : asciiTable.number "H".toList = none := by decide +kernel
  rw [hnone] at hk
  cases hk

/-- The value of `H2` at the time `1` is returned for the time `2`. -/
theorem readScalarTimeseries_digit :
    ¬∃ read, readScalarTimeseries asciiTable mergeArgsort
        ([⟨"H2", 1, 7⟩].map fun d : Dataset ℕ => (d.name, d.value)) ["H2"] = some read ∧
      ∀ s ∈ ["H2"], IsSeries [⟨"H2", 1, 7⟩] s (read s) := by
  rintro ⟨read, hread, h⟩
  have hH2 := List.mem_singleton_self "H2"
  have hunamb := (isSeries_iff (List.nodup_singleton _) hread hH2).mp (h _ hH2)
  have htwo : asciiTable.number "H2".toList = some 2 := by decide +kernel
  have hindex : 1 = 2 := hunamb.number _ (List.mem_singleton_self _) rfl 2 htwo
  cases hindex

end Icesee
