import Mathlib.Data.List.DropRight
import Icesee.Lib.Firsts

/-!
`gen_pip_reqs.py`: which dependencies of a project are left to pip.

A dependency is a requirement of PEP 508. Its key is what comes before the first of a few
characters (`norm`), and the script keeps the first dependency of every key that is not in
`PIP_EXCLUDE`. The name of the project ends at other characters too, and names that pip takes
for one have several keys. `pipReqs_iff` says when the script does with the keys what it should
do with the projects.
-/

namespace Icesee.PipReqs

open Firsts

/-! ### The script -/

/-- What `str.strip` removes. -/
def isSpace (c : Char) : Bool :=
  c.toNat ∈ List.range' 9 5 ++ List.range' 28 5 ++ [133, 160, 5760] ++ List.range' 8192 11 ++
    [8232, 8233, 8239, 8287, 12288]

def strip (text : List Char) : List Char := (text.dropWhile isSpace).rdropWhile isSpace

/-- The characters at which `norm` splits. -/
def separators : List Char := ['<', '>', '=', '!', '~', ' ', '[']

/-- `.lower().replace("_", "-")`, of one character. -/
def normChar (c : Char) : Char := if c.toLower = '_' then '-' else c.toLower

/-- `norm`. -/
def norm (name : String) : String :=
  String.ofList (((strip name.toList).takeWhile (· ∉ separators)).map normChar)

/-- `PIP_EXCLUDE`. -/
def pipExclude : List String :=
  ["h5py", "setuptools", "wheel", "pip", "python", "jax", "jaxlib"]

/-- The loop over the dependencies, with `seen` and `kept`. -/
def keep (deps : List String) : List String :=
  (deps.foldl (fun (s : Finset String × List String) d =>
    let key := norm d
    if key ∈ pipExclude then s
    else if key ∉ s.1 then (insert key s.1, s.2 ++ [d]) else s) (∅, [])).2

/-- The table `project` of `pyproject.toml`. -/
structure Project where
  dependencies : List String := []
  optionalDependencies : String → Option (List String) := fun _ => none

/-- `args.extras`, at its commas. -/
def splitExtras (extras : String) : List String :=
  (((extras.toList.splitOn ',').map strip).filter (· ≠ [])).map String.ofList

/-- `deps`. -/
def Project.deps (proj : Project) (extras : String) : List String :=
  proj.dependencies ++
    (splitExtras extras).flatMap fun e => (proj.optionalDependencies e).getD []

/-- The text of the file. -/
def fileText (kept : List String) : String :=
  String.intercalate "\n" kept ++ if kept = [] then "" else "\n"

/-- What `main` writes for a project and its extras. -/
def main (proj : Project) (extras : String) : String := fileText (keep (proj.deps extras))

/-! ### Requirements -/

/-- The white space of PEP 508. -/
def blanks : List Char := [' ', '\t']

/-- The characters that count as one dash in a name. -/
def isSep (c : Char) : Bool := c ∈ ['-', '_', '.']

def isNameChar (c : Char) : Bool := c.isAlphanum || isSep c

/-- A requirement of PEP 508: the name of a project, and what follows. That is nothing, extras,
versions, with or without parentheses, a reference, or a marker. -/
structure Requirement where
  lead : List Char
  name : List Char
  tail : List Char
  lead_blank : ∀ c ∈ lead, c ∈ blanks
  name_chars : ∀ c ∈ name, isNameChar c
  name_ne : name ≠ []
  first : (name.head name_ne).isAlphanum
  last : (name.getLast name_ne).isAlphanum
  follows : ∀ c ∈ (tail.dropWhile (· ∈ blanks)).head?,
    c ∈ ['[', '(', '<', '>', '=', '!', '~', '@', ';']
  printable : ∀ c ∈ tail, c = '\t' ∨ (' ' ≤ c ∧ c ≤ '~')

/-- The requirement as it is written. -/
def Requirement.text (r : Requirement) : String := String.ofList (r.lead ++ r.name ++ r.tail)

/-- Every run of separators is one dash. -/
def collapse : List Char → List Char
  | [] => []
  | c :: s =>
      if isSep c && s.head?.any isSep then collapse s
      else (if isSep c then '-' else c) :: collapse s

/-- The normalized name of the project that a requirement is about. -/
def project (d : String) : String :=
  String.ofList ((collapse ((d.toList.dropWhile (· ∈ blanks)).takeWhile isNameChar)).map
    Char.toLower)

/-- What the script is for. -/
structure Filtered (deps kept : List String) : Prop where
  excluded : ∀ d ∈ kept, project d ∉ pipExclude
  once : (kept.map project).Nodup
  first : kept = firsts pipExclude project deps

/-- Nothing follows the name, or a character at which `norm` splits. -/
def Requirement.Cut (r : Requirement) : Prop :=
  ∀ c ∈ (r.tail.rdropWhile isSpace).head?, c ∈ separators

/-! ### Characters -/

/-- What holds of the first `128` characters holds of every one of them. -/
lemma of_ascii {P : Char → Prop} (h : ∀ n < 128, P (Char.ofNat n)) {c : Char}
    (hc : c.toNat < 128) : P c := by
  have hP := h c.toNat hc
  rwa [Char.ofNat_toNat] at hP

/-- What is checked character by character. -/
lemma forall_of_all {P : Char → Prop} [DecidablePred P] {l : List Char}
    (h : l.all fun c => decide (P c)) : ∀ c ∈ l, P c :=
  fun c hc => of_decide_eq_true (List.all_eq_true.mp h c hc)

lemma toNat_lt_of_isNameChar {c : Char} (h : isNameChar c) : c.toNat < 128 := by
  rw [isNameChar, Bool.or_eq_true] at h
  rcases h with h | h
  · change ((decide ('A'.val ≤ c.val ∧ c.val ≤ 'Z'.val) ||
        (decide ('a'.val ≤ c.val) && decide (c.val ≤ 'z'.val))) ||
      (decide ('0'.val ≤ c.val) && decide (c.val ≤ '9'.val))) = true at h
    simp only [Bool.or_eq_true, Bool.and_eq_true, decide_eq_true_eq, UInt32.le_iff_toNat_le] at h
    change ((65 ≤ c.toNat ∧ c.toNat ≤ 90) ∨ (97 ≤ c.toNat ∧ c.toNat ≤ 122)) ∨
      (48 ≤ c.toNat ∧ c.toNat ≤ 57) at h
    omega
  · have hmem : c ∈ ['-', '_', '.'] := of_decide_eq_true h
    simp only [List.mem_cons, List.not_mem_nil, or_false] at hmem
    rcases hmem with rfl | rfl | rfl <;> decide

/-- The characters of names. -/
lemma nameChar_spec {c : Char} (h : isNameChar c) : isSpace c = false ∧ c ∉ separators ∧
    isNameChar (normChar c) ∧ isSep (normChar c) = isSep c ∧ (isSep c → ¬(normChar c).isAlphanum) ∧
    (isSep c = false → normChar c = c.toLower) := by
  have key := of_ascii (P := fun c => isNameChar c → isSpace c = false ∧ c ∉ separators ∧
    isNameChar (normChar c) ∧ isSep (normChar c) = isSep c ∧ (isSep c → ¬(normChar c).isAlphanum) ∧
    (isSep c = false → normChar c = c.toLower)) (by decide +kernel) (toNat_lt_of_isNameChar h)
  exact key h

/-- What can follow a name without ending it for `norm`. -/
def junk : List Char := ['\t', '(', '@', ';']

lemma junk_spec : ∀ c ∈ junk,
    isNameChar (normChar c) = false ∧ (normChar c).isAlphanum = false :=
  forall_of_all (by decide)

lemma pipExclude_alphanum : ∀ s ∈ pipExclude, ∀ c ∈ s.toList, c.isAlphanum := by
  have hall : ∀ s ∈ pipExclude, s.toList.all Char.isAlphanum := by decide +kernel
  exact fun s hs => List.all_eq_true.mp (hall s hs)

/-! ### Names -/

/-- Without separators there is nothing to collapse. -/
lemma collapse_eq_self {s : List Char} (h : ∀ c ∈ s, isSep c = false) : collapse s = s := by
  induction s with
  | nil => rfl
  | cons c s ih =>
      rw [List.forall_mem_cons] at h
      rw [collapse, h.1, ih h.2]
      rfl

/-- A separator leaves a dash. -/
lemma dash_mem_collapse {s : List Char} {c : Char} (hc : c ∈ s) (h : isSep c) :
    '-' ∈ collapse s := by
  induction s generalizing c with
  | nil => simp at hc
  | cons d s ih =>
      rw [collapse]
      split_ifs with hrun hd
      · -- the separator after this one leaves it
        obtain ⟨-, hnext⟩ := Bool.and_eq_true_iff.mp hrun
        obtain ⟨e, he, hsep⟩ := (Option.any_eq_true _ _).mp hnext
        exact ih (List.mem_of_head? he) hsep
      · exact List.mem_cons_self
      · have hne : c ≠ d := fun hcd => hd (hcd ▸ h)
        exact List.mem_cons_of_mem _ (ih ((List.mem_cons.mp hc).resolve_left hne) h)

/-- Collapsing a name and its key is the same. -/
lemma map_collapse {s : List Char} (h : ∀ c ∈ s, isNameChar c) :
    (collapse s).map Char.toLower = collapse (s.map normChar) := by
  induction s with
  | nil => rfl
  | cons c s ih =>
      have hnext : (s.map normChar).head?.any isSep = s.head?.any isSep := by
        rw [List.head?_map, Option.any_map]
        cases hs : s.head? with
        | none => rfl
        | some d =>
            have hd := h d (List.mem_cons_of_mem c (List.mem_of_head? hs))
            exact (nameChar_spec hd).2.2.2.1
      rw [List.forall_mem_cons] at h
      obtain ⟨-, -, -, hsep, -, hlower⟩ := nameChar_spec h.1
      rw [List.map_cons, collapse, collapse, hsep, hnext, ← ih h.2]
      cases hc : isSep c with
      | false => rw [hlower hc]; rfl
      | true => cases s.head?.any isSep <;> rfl

/-- White space at the end of a text whose beginning ends without any. -/
lemma rdropWhile_append {p : Char → Bool} {a : List Char} (ha : a.rdropWhile p = a)
    (b : List Char) : (a ++ b).rdropWhile p = a ++ b.rdropWhile p := by
  induction b using List.reverseRecOn with
  | nil => rw [List.append_nil, ha, List.rdropWhile_nil, List.append_nil]
  | append_singleton b c ih =>
      rw [← List.append_assoc]
      by_cases hc : p c
      · rw [List.rdropWhile_concat_pos _ _ _ hc, List.rdropWhile_concat_pos _ _ _ hc, ih]
      · rw [List.rdropWhile_concat_neg _ _ _ hc, List.rdropWhile_concat_neg _ _ _ hc,
          List.append_assoc]

lemma isSpace_of_mem_blanks : ∀ c ∈ blanks, isSpace c := forall_of_all (by decide)

namespace Requirement

variable (r : Requirement)

/-- What `norm` takes for a part of the name. -/
def rest : List Char := (r.tail.rdropWhile isSpace).takeWhile (· ∉ separators)

lemma not_isSpace {c : Char} (hc : c ∈ r.name) : ¬isSpace c :=
  Bool.eq_false_iff.mp (nameChar_spec (r.name_chars c hc)).1

/-- Stripping removes what is before the name, and nothing of it. -/
lemma strip_text : strip (r.lead ++ r.name ++ r.tail) = r.name ++ r.tail.rdropWhile isSpace := by
  have hlead : ∀ c ∈ r.lead, isSpace c := fun c hc => isSpace_of_mem_blanks c (r.lead_blank c hc)
  have hfirst : (r.name ++ r.tail).dropWhile isSpace = r.name ++ r.tail := by
    rw [← List.cons_head_tail r.name_ne, List.cons_append,
      List.dropWhile_cons_of_neg (r.not_isSpace (List.head_mem _))]
  have hlast : r.name.rdropWhile isSpace = r.name :=
    List.rdropWhile_eq_self_iff.mpr fun h => r.not_isSpace (List.getLast_mem h)
  rw [strip, List.append_assoc, List.dropWhile_append_of_pos hlead, hfirst,
    rdropWhile_append hlast]

/-- **The key** is the name with what `norm` takes for a part of it. -/
lemma norm_text : norm r.text = String.ofList (r.name.map normChar ++ r.rest.map normChar) := by
  have hname : ∀ c ∈ r.name, decide (c ∉ separators) = true := fun c hc =>
    decide_eq_true (nameChar_spec (r.name_chars c hc)).2.1
  rw [norm, text, String.toList_ofList, strip_text, List.takeWhile_append_of_pos hname,
    List.map_append]
  rfl

/-- A name is followed by white space, or by what PEP 508 has after it. -/
lemma head?_tail {c : Char} (h : r.tail.head? = some c) :
    c ∈ blanks ++ ['[', '(', '<', '>', '=', '!', '~', '@', ';'] := by
  by_cases hc : c ∈ blanks
  · exact List.mem_append_left _ hc
  · refine List.mem_append_right _ (r.follows c ?_)
    obtain ⟨s, hs⟩ := List.head?_eq_some_iff.mp h
    rw [hs, List.dropWhile_cons_of_neg (by simpa using hc)]
    rfl

/-- **The project** is the one of the name. -/
lemma project_text : project r.text = String.ofList (collapse (r.name.map normChar)) := by
  have hfirst : (r.name ++ r.tail).dropWhile (· ∈ blanks) = r.name ++ r.tail := by
    have hblank : r.name.head r.name_ne ∉ blanks := fun h =>
      r.not_isSpace (List.head_mem _) (isSpace_of_mem_blanks _ h)
    rw [← List.cons_head_tail r.name_ne, List.cons_append,
      List.dropWhile_cons_of_neg (by simpa using hblank)]
  have htail : r.tail.takeWhile isNameChar = [] := by
    have hfollow : ∀ c ∈ blanks ++ ['[', '(', '<', '>', '=', '!', '~', '@', ';'],
        ¬isNameChar c := forall_of_all (by decide)
    cases ht : r.tail with
    | nil => rfl
    | cons c s =>
        exact List.takeWhile_cons_of_neg (hfollow c (r.head?_tail (by rw [ht]; rfl)))
  rw [project, text, String.toList_ofList, List.append_assoc,
    List.dropWhile_append_of_pos fun c hc => decide_eq_true (r.lead_blank c hc), hfirst,
    List.takeWhile_append_of_pos r.name_chars, htail, List.append_nil,
    map_collapse r.name_chars]

/-- What `norm` takes for a part of the name is no part of a name. -/
lemma rest_spec : r.rest = [] ∨ ∃ c s, r.rest = c :: s ∧ c ∈ junk := by
  have hjunk : ∀ c ∈ blanks ++ ['[', '(', '<', '>', '=', '!', '~', '@', ';'],
      c ∉ separators → c ∈ junk := forall_of_all (by decide)
  refine or_iff_not_imp_left.mpr fun hne => ?_
  obtain ⟨c, s, hs⟩ := List.exists_cons_of_ne_nil hne
  refine ⟨c, s, hs, hjunk c (r.head?_tail ?_) ?_⟩
  · have hcut : r.rest <+: r.tail :=
      (List.takeWhile_prefix _).trans (List.rdropWhile_prefix _ _)
    obtain ⟨t, ht⟩ := hcut
    rw [← ht, hs]
    rfl
  · have hmem : c ∈ r.rest := by
      rw [hs]
      exact List.mem_cons_self
    rw [rest] at hmem
    simpa using List.mem_takeWhile_imp hmem

/-- `norm` ends at the name if nothing else is taken for a part of it. -/
lemma cut_iff : r.Cut ↔ r.rest = [] := by
  rw [Cut, rest]
  cases r.tail.rdropWhile isSpace with
  | nil => simp
  | cons c s =>
      by_cases hc : c ∈ separators <;> simp [hc]

/-- The part of the key that is the name. -/
lemma takeWhile_norm : (norm r.text).toList.takeWhile isNameChar = r.name.map normChar := by
  have hname : ∀ c ∈ r.name.map normChar, isNameChar c := by
    intro c hc
    obtain ⟨d, hd, rfl⟩ := List.mem_map.mp hc
    exact (nameChar_spec (r.name_chars d hd)).2.2.1
  have hrest : (r.rest.map normChar).takeWhile isNameChar = [] := by
    rcases r.rest_spec with h | ⟨c, s, h, hc⟩
    · rw [h]
      rfl
    · rw [h, List.map_cons, List.takeWhile_cons_of_neg]
      rw [(junk_spec c hc).1]
      exact Bool.false_ne_true
  rw [norm_text, String.toList_ofList, List.takeWhile_append_of_pos hname, hrest, List.append_nil]

/-- Requirements with one key are about one project. -/
lemma project_eq_of_norm_eq {r r' : Requirement} (h : norm r.text = norm r'.text) :
    project r.text = project r'.text := by
  rw [project_text, project_text, ← takeWhile_norm, ← takeWhile_norm, h]

/-- A name without separators is its own project. -/
lemma collapse_of_alphanum (h : ∀ c ∈ collapse (r.name.map normChar), c.isAlphanum) :
    collapse (r.name.map normChar) = r.name.map normChar := by
  refine collapse_eq_self fun c hc => ?_
  by_contra hsep
  have hdash := h _ (dash_mem_collapse hc (Bool.not_eq_false _ ▸ hsep))
  exact absurd hdash (by decide)

/-- **The excluded keys** are those of the excluded projects, as far as `norm` ends at the
name. -/
lemma norm_mem_pipExclude_iff :
    norm r.text ∈ pipExclude ↔ project r.text ∈ pipExclude ∧ r.Cut := by
  rw [cut_iff]
  constructor
  · intro h
    -- an excluded key has letters and digits only, and no junk behind the name
    have halpha := pipExclude_alphanum _ h
    rw [norm_text, String.toList_ofList] at halpha
    have hrest : r.rest = [] := by
      refine r.rest_spec.resolve_right ?_
      rintro ⟨c, s, hs, hc⟩
      have halpha' := halpha (normChar c)
        (List.mem_append_right _ (by rw [hs]; exact List.mem_cons_self))
      rw [(junk_spec c hc).2] at halpha'
      cases halpha'
    refine ⟨?_, hrest⟩
    -- neither are there separators in the name
    have hself : collapse (r.name.map normChar) = r.name.map normChar := by
      refine collapse_eq_self fun c hc => ?_
      obtain ⟨d, hd, rfl⟩ := List.mem_map.mp hc
      obtain ⟨-, -, -, hsep, hno, -⟩ := nameChar_spec (r.name_chars d hd)
      rw [hsep]
      exact Bool.eq_false_iff.mpr fun h => hno h (halpha _ (List.mem_append_left _ hc))
    rw [norm_text, hrest] at h
    rw [project_text, hself]
    simpa using h
  · rintro ⟨h, hrest⟩
    have halpha := pipExclude_alphanum _ h
    rw [project_text, String.toList_ofList] at halpha
    rw [project_text, r.collapse_of_alphanum halpha] at h
    rw [norm_text, hrest]
    simpa using h

end Requirement

/-! ### The list that is written -/

/-- The loop keeps the first dependency of every key. -/
lemma keep_eq (deps : List String) : keep deps = firsts pipExclude norm deps := foldl_seen_eq deps

/-- With the keys of the projects the list is filtered. -/
lemma filtered_firsts (deps : List String) : Filtered deps (firsts pipExclude project deps) :=
  ⟨fun _ hd => key_notMem_excl hd, nodup_firsts, rfl⟩

/-- **The requirements.** The list is filtered exactly if `norm` ends at the name in every
requirement of an excluded project, and the requirements of any other project have one key. -/
theorem pipReqs_iff (reqs : List Requirement) :
    Filtered (reqs.map Requirement.text) (keep (reqs.map Requirement.text)) ↔
      (∀ r ∈ reqs, project r.text ∈ pipExclude → r.Cut) ∧
      ∀ r ∈ reqs, ∀ r' ∈ reqs, project r.text ∉ pipExclude → project r'.text = project r.text →
        norm r'.text = norm r.text := by
  set deps := reqs.map Requirement.text with hdeps
  have htext : ∀ d ∈ deps, ∃ r ∈ reqs, r.text = d := fun d hd => List.mem_map.mp hd
  have hmem : ∀ r ∈ reqs, r.text ∈ deps := fun r hr => List.mem_map_of_mem hr
  rw [keep_eq]
  constructor
  · intro h
    -- what is not excluded is there, by its key
    have hkept : ∀ r ∈ reqs, norm r.text ∉ pipExclude →
        ∃ d ∈ firsts pipExclude norm deps, norm d = norm r.text ∧ project d = project r.text := by
      intro r hr hexcl
      have hkey := mem_map_firsts.mpr ⟨hexcl, List.mem_map_of_mem (hmem r hr)⟩
      obtain ⟨d, hd, hnorm⟩ := List.mem_map.mp hkey
      obtain ⟨r', -, rfl⟩ := htext d (firsts_sublist.subset hd)
      exact ⟨_, hd, hnorm, Requirement.project_eq_of_norm_eq hnorm⟩
    refine ⟨fun r hr hexcl => ?_, fun r hr r' hr' hexcl hproj => ?_⟩
    · by_contra hcut
      obtain ⟨d, hd, -, hproj⟩ := hkept r hr fun hn =>
        hcut (r.norm_mem_pipExclude_iff.mp hn).2
      exact h.excluded d hd (hproj ▸ hexcl)
    · have hnot : ∀ s : Requirement, project s.text = project r.text → norm s.text ∉ pipExclude :=
        fun s hs hn => hexcl (hs ▸ (s.norm_mem_pipExclude_iff.mp hn).1)
      obtain ⟨d, hd, hdn, hdp⟩ := hkept r hr (hnot r rfl)
      obtain ⟨d', hd', hdn', hdp'⟩ := hkept r' hr' (hnot r' hproj)
      have heq : d' = d :=
        List.inj_on_of_nodup_map h.once hd' hd (hdp'.trans (hproj.trans hdp.symm))
      rw [← hdn', ← hdn, heq]
  · rintro ⟨hcut, hkey⟩
    -- by the first condition the excluded keys are those of the excluded projects
    have hexcl : ∀ d ∈ deps, norm d ∈ pipExclude ↔ project d ∈ pipExclude := by
      intro d hd
      obtain ⟨r, hr, rfl⟩ := htext d hd
      rw [r.norm_mem_pipExclude_iff]
      exact and_iff_left_of_imp (hcut r hr)
    rw [firsts_congr hexcl]
    · exact filtered_firsts deps
    · intro d hd d' hd' hnot
      obtain ⟨r, hr, rfl⟩ := htext d hd
      obtain ⟨r', hr', rfl⟩ := htext d' hd'
      rw [hexcl _ hd] at hnot
      exact ⟨Requirement.project_eq_of_norm_eq, hkey r hr r' hr' hnot⟩

/-- A marker right after the name. -/
def h5pyMarker : Requirement where
  lead := []
  name := "h5py".toList
  tail := ";python_version>'3'".toList
  lead_blank := nofun
  name_chars := forall_of_all (by decide)
  name_ne := by decide
  first := by decide
  last := by decide
  follows := fun _ hc => Option.some.inj hc ▸ by decide
  printable := forall_of_all (by decide)

/-- It passes an excluded project on to pip. -/
theorem pipReqs_marker :
    ¬Filtered ([h5pyMarker].map Requirement.text) (keep ([h5pyMarker].map Requirement.text)) := by
  intro h
  have hkeep : keep [h5pyMarker.text] = [h5pyMarker.text] := by decide +kernel
  have hexcl : project h5pyMarker.text ∈ pipExclude := by decide +kernel
  exact h.excluded _ (by rw [List.map_singleton, hkeep]; exact List.mem_singleton_self _) hexcl

/-! ### The file -/

/-- The break after the last line begins an empty one. -/
lemma intercalate_concat_nil {sep : List Char} {ls : List (List Char)} (h : ls ≠ []) :
    sep.intercalate (ls ++ [[]]) = sep.intercalate ls ++ sep := by
  induction ls with
  | nil => exact absurd rfl h
  | cons l ls ih =>
      cases ls with
      | nil => simp [List.intercalate_cons_cons]
      | cons l' ls =>
          rw [List.cons_append, List.cons_append, List.intercalate_cons_cons,
            List.intercalate_cons_cons, ← List.cons_append, ih (List.cons_ne_nil _ _)]
          simp only [List.append_assoc]

/-- Without line breaks in it, a list is the lines of the file. -/
lemma splitOn_fileText {kept : List String} (hne : kept ≠ [])
    (hlines : ∀ d ∈ kept, '\n' ∉ d.toList) :
    (fileText kept).toList.splitOn '\n' = kept.map String.toList ++ [[]] := by
  have htext : (fileText kept).toList =
      ['\n'].intercalate (kept.map String.toList ++ [[]]) := by
    rw [fileText, if_neg hne, String.toList_append, String.toList_intercalate,
      intercalate_concat_nil (by simpa using hne)]
    rfl
  rw [htext, List.splitOn_intercalate]
  · intro l hl
    rcases List.mem_append.mp hl with h | h
    · obtain ⟨d, hd, rfl⟩ := List.mem_map.mp h
      exact hlines d hd
    · rw [List.mem_singleton.mp h]
      exact List.not_mem_nil
  · simp

/-- A requirement is one line. -/
lemma Requirement.newline_notMem (r : Requirement) : '\n' ∉ r.text.toList := by
  rw [text, String.toList_ofList, List.mem_append, List.mem_append]
  rintro ((h | h) | h)
  · exact absurd (r.lead_blank _ h) (by decide)
  · exact absurd (r.name_chars _ h) (by decide)
  · exact absurd (r.printable _ h) (by decide)

/-- **The file** has the requirements that are kept as its lines. -/
theorem splitOn_main (proj : Project) (extras : String) {reqs : List Requirement}
    (hdeps : proj.deps extras = reqs.map Requirement.text) (hne : keep (proj.deps extras) ≠ []) :
    (main proj extras).toList.splitOn '\n' =
      (keep (proj.deps extras)).map String.toList ++ [[]] := by
  refine splitOn_fileText hne fun d hd => ?_
  rw [keep_eq, hdeps] at hd
  obtain ⟨r, -, rfl⟩ := List.mem_map.mp (firsts_sublist.subset hd)
  exact r.newline_notMem

end Icesee.PipReqs
