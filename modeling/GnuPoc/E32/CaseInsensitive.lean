import GnuPoc.E32.CapabilitySet
import GnuPoc.Lib.FileTree

/-!
# GnuPoc.E32.CaseInsensitive — a path found without regard to case (`caseinsensitive.cpp`)

`findCaseInsensitive` is handed the string `fullpath` and a pointer `path` into it, here the bytes in front of
the pointer and those behind it; a null `fullpath` is `none`.  The result is what the function leaves behind
the pointer where it returns true.
-/

namespace GnuPoc.E32

open GnuPoc.Lib

/-- A turn of the loop over the entries of a directory, by `stricmp`: `next` goes on behind the name of the
entry. -/
def tryEntry (stricmp : Bytes → Bytes → ℤ) (filename : Bytes) (next : Bytes → Option Bytes) (d_name : Bytes) :
    Option Bytes :=
  if stricmp filename d_name = 0 then
    let name := d_name.take filename.length
    (next name).map (name ++ ·)
  else none

/-- The loop over the entries of the directory in front of `path`. -/
def searchDirectory (T : FileTree) (stricmp : Bytes → Bytes → ℤ) (fullpath : Option Bytes) (filename : Bytes)
    (next : Bytes → Option Bytes) : Option Bytes :=
  (T.readdir (fullpath.getD (dot ++ [slash]))).bind fun dir => dir.findSome? (tryEntry stricmp filename next)

def findCaseInsensitive (T : FileTree) (fullpath : Option Bytes) (path : Bytes) : Option Bytes :=
  match path with
  | [] => some []
  | c :: tail =>
    if c = slash then
      (findCaseInsensitive T (some (fullpath.getD [] ++ [slash])) tail).map (slash :: ·)
    else
      let filename := c :: tail.takeWhile (· ≠ slash)
      let ptr := tail.dropWhile (· ≠ slash)
      searchDirectory T stricmp fullpath filename fun name =>
        (findCaseInsensitive T (some (fullpath.getD [] ++ name ++ ptr.take 1)) (ptr.drop 1)).map (ptr.take 1 ++ ·)
termination_by path.length
decreasing_by
  · simp
  · have := (List.dropWhile_sublist (· ≠ slash) (l := tail)).length_le
    simp only [List.length_drop, List.length_cons]
    omega

/-! ### Comparing without regard to case -/

/-- The names are the same but for case. -/
def sameName (fold : UInt8 → UInt8) (a b : Bytes) : Bool := a.map fold == b.map fold

theorem length_of_sameName {fold : UInt8 → UInt8} {a b : Bytes} (h : sameName fold a b) :
    b.length = a.length := by
  simpa using (congrArg List.length (eq_of_beq h)).symm

/-- `stricmp` compares up to `fold`. -/
def ComparesBy (stricmp : Bytes → Bytes → ℤ) (fold : UInt8 → UInt8) : Prop :=
  ∀ a b, stricmp a b = 0 ↔ sameName fold a b

theorem stricmp_comparesBy : ComparesBy stricmp toupper := by
  intro a b
  rw [stricmp_eq_zero, sameName, beq_iff_eq]
  rfl

variable {cmp : Bytes → Bytes → ℤ} {fold : UInt8 → UInt8}

/-- The turn for an entry: where the names are the same, the entry's own replaces the wanted one. -/
theorem tryEntry_eq (hcmp : ComparesBy cmp fold) (filename d_name : Bytes) (next : Bytes → Option Bytes) :
    tryEntry cmp filename next d_name =
      if sameName fold filename d_name then (next d_name).map (d_name ++ ·) else none := by
  by_cases h : sameName fold filename d_name
  · have htake : d_name.take filename.length = d_name := by
      rw [← length_of_sameName h, List.take_length]
    rw [tryEntry, if_pos ((hcmp _ _).mpr h), if_pos h, htake]
  · rw [tryEntry, if_neg ((hcmp _ _).not.mpr h), if_neg h]

/-! ### The search -/

/-- `fullpath`, in front of `path`, ends in a separator and names the directory `n`; where it is null, `n` is
the working directory. -/
inductive At (T : FileTree) : Option Bytes → T.Node → Prop
  | null : At T none T.cwd
  | full {front : Bytes} {n : T.Node} (h : T.resolve (front ++ [slash]) = some n) :
    At T (some (front ++ [slash])) n

variable {T : FileTree} {fullpath : Option Bytes} {n : T.Node}

theorem isAbsolute_append {front rest : Bytes} (h : front ≠ []) : isAbsolute (front ++ rest) = isAbsolute front := by
  rw [isAbsolute, isAbsolute, List.head?_append_of_ne_nil _ h]

/-- What `opendir` gets to see. -/
theorem At.readdir (hat : At T fullpath n) :
    T.readdir (fullpath.getD (dot ++ [slash])) = (T.entries n).map fun es => es.map Prod.fst := by
  cases hat with
  | null =>
    have hstart : T.start (dot ++ [slash]) = T.cwd := rfl
    have hcomps : components (dot ++ [slash]) = [dot] := rfl
    rw [Option.getD_none, FileTree.readdir, FileTree.resolve, hstart, hcomps]
    cases hes : T.entries T.cwd with
    | none => simp [FileTree.walk, FileTree.lookup, hes]
    | some es => simp [FileTree.walk, FileTree.lookup_mem hes (T.dot_mem hes), hes]
  | full h => rw [Option.getD_some, FileTree.readdir, h, Option.bind_some]

theorem At.addSlash {front : Bytes} (hat : At T (some front) n) : At T (some (front ++ [slash])) n := by
  cases hat with
  | @full front _ h =>
    refine .full ?_
    rw [FileTree.resolve, FileTree.start, isAbsolute_append (by simp), components_append, components_nil,
      List.append_nil]
    exact h

theorem isAbsolute_name {name : Bytes} (rest : Bytes) (hne : name ≠ []) (hslash : slash ∉ name) :
    isAbsolute (name ++ rest) = false := by
  rcases name with - | ⟨c, name⟩
  · exact absurd rfl hne
  · have hc : c ≠ slash := fun h => hslash (by simp [h])
    simpa [isAbsolute] using hc

theorem At.addName {m : T.Node} {name : Bytes} (hat : At T fullpath n) (hm : T.lookup n name = some m)
    (hne : name ≠ []) (hslash : slash ∉ name) : At T (some (fullpath.getD [] ++ name ++ [slash])) m := by
  refine .full ?_
  cases hat with
  | null =>
    rw [Option.getD_none, List.nil_append, FileTree.resolve, FileTree.start, isAbsolute_name _ hne hslash,
      components_append, components_name hne hslash]
    simp [FileTree.walk, hm]
  | @full front _ h =>
    have hcomps : components (front ++ [slash] ++ name ++ [slash]) = components (front ++ [slash]) ++ [name] := by
      have hassoc : front ++ [slash] ++ name ++ [slash] = front ++ slash :: (name ++ slash :: []) := by simp
      rw [hassoc, components_append, components_append, components_append, components_name hne hslash]
      simp
    rw [Option.getD_some, FileTree.resolve, FileTree.start, List.append_assoc (front ++ [slash]),
      isAbsolute_append (by simp), ← List.append_assoc, hcomps, FileTree.walk_append]
    change ((T.resolve (front ++ [slash])).bind fun m => T.walk m [name]) = some m
    rw [h]
    simp [FileTree.walk, hm]

/-- The loop searches the directory for the name and goes on below each entry that has it. -/
theorem searchDirectory_map (hcmp : ComparesBy cmp fold) {filename : Bytes} {next : Bytes → Option Bytes}
    {comps : Bytes → List Bytes} {names : List Bytes} (hat : At T fullpath n)
    (hnext : ∀ name m, sameName fold filename name → T.lookup n name = some m →
      (next name).map (fun p => comps (name ++ p)) = (T.search (sameName fold) m names).map (name :: ·)) :
    (searchDirectory T cmp fullpath filename next).map comps =
      T.search (sameName fold) n (filename :: names) := by
  rw [searchDirectory, hat.readdir, FileTree.search]
  cases hes : T.entries n with
  | none => rfl
  | some es =>
    rw [Option.map_some, Option.bind_some, Option.bind_some, List.findSome?_map, List.map_findSome?]
    refine findSome?_congr fun e he => ?_
    rw [Function.comp, Function.comp, tryEntry_eq hcmp]
    by_cases hsame : sameName fold filename e.1
    · rw [if_pos hsame, if_pos hsame, Option.map_map]
      exact hnext e.1 e.2 hsame (FileTree.lookup_mem hes he)
    · rw [if_neg hsame, if_neg hsame, Option.map_none]

theorem searchDirectory_some (hcmp : ComparesBy cmp fold) {filename p : Bytes} {next : Bytes → Option Bytes}
    (h : searchDirectory T cmp fullpath filename next = some p) :
    ∃ name rest, sameName fold filename name ∧ next name = some rest ∧ p = name ++ rest := by
  obtain ⟨dir, -, h⟩ := Option.bind_eq_some_iff.mp h
  obtain ⟨name, -, h⟩ := List.exists_of_findSome?_eq_some h
  rw [tryEntry_eq hcmp] at h
  obtain ⟨hsame, h⟩ := Option.ite_none_right_eq_some.mp h
  obtain ⟨rest, hrest, rfl⟩ := Option.map_eq_some_iff.mp h
  exact ⟨name, rest, hsame, hrest, rfl⟩

/-! ### `findCaseInsensitive` is the search -/

/-- Where a path that starts with a name is cut: the name, and nothing or a separator with the rest. -/
theorem firstName (c : UInt8) (tail : Bytes) :
    c :: tail = c :: tail.takeWhile (· ≠ slash) ++ tail.dropWhile (· ≠ slash) ∧
      (tail.dropWhile (· ≠ slash) = [] ∨ ∃ rest, tail.dropWhile (· ≠ slash) = slash :: rest) := by
  constructor
  · rw [List.cons_append, List.takeWhile_append_dropWhile]
  · cases h : tail.dropWhile (· ≠ slash) with
    | nil => exact .inl rfl
    | cons d rest =>
      have hd := List.head?_dropWhile_not (fun c => decide (c ≠ slash)) tail
      rw [h] at hd
      obtain rfl : d = slash := by simpa using hd
      exact .inr ⟨rest, rfl⟩

theorem slash_notMem_takeWhile (tail : Bytes) : slash ∉ tail.takeWhile (· ≠ slash) := by
  intro h
  simpa using List.mem_takeWhile_imp h

/-- Case does not matter to the separator. -/
def KeepsSlash (fold : UInt8 → UInt8) : Prop := ∀ c, fold c = slash ↔ c = slash

theorem toupper_keepsSlash : KeepsSlash toupper := by
  have h : ∀ n : Fin 256, toupper (UInt8.ofFin n) = slash ↔ UInt8.ofFin n = slash := by decide +kernel
  exact fun c => h c.toFin

theorem slash_notMem_of_sameName {fold : UInt8 → UInt8} (hfold : KeepsSlash fold) {a b : Bytes}
    (h : sameName fold a b) (ha : slash ∉ a) : slash ∉ b := by
  intro hb
  have hmem : fold slash ∈ a.map fold := by
    rw [eq_of_beq h]
    exact List.mem_map_of_mem hb
  obtain ⟨c, hc, hcs⟩ := List.mem_map.mp hmem
  rw [(hfold slash).mpr rfl] at hcs
  rw [(hfold c).mp hcs] at hc
  exact ha hc

theorem ne_nil_of_sameName {fold : UInt8 → UInt8} {a b : Bytes} (h : sameName fold a b) (ha : a ≠ []) : b ≠ [] := by
  intro hb
  have := length_of_sameName h
  rw [hb, List.length_nil] at this
  exact ha (List.length_eq_zero_iff.mp this.symm)

/-- A path that starts with a name, when the rest of it is known to be searched for. -/
theorem findCaseInsensitive_name {c : UInt8} {tail : Bytes} (hat : At T fullpath n) (hc : c ≠ slash)
    (ih : ∀ front m, At T (some front) m →
      (findCaseInsensitive T (some front) ((tail.dropWhile (· ≠ slash)).drop 1)).map components =
        T.search (sameName toupper) m (components ((tail.dropWhile (· ≠ slash)).drop 1))) :
    (findCaseInsensitive T fullpath (c :: tail)).map components =
      T.search (sameName toupper) n (components (c :: tail)) := by
  obtain ⟨heq, hptr⟩ := firstName c tail
  have hslash : slash ∉ c :: tail.takeWhile (· ≠ slash) := by
    rw [List.mem_cons, not_or]
    exact ⟨hc.symm, slash_notMem_takeWhile tail⟩
  rw [findCaseInsensitive, if_neg hc]
  conv_rhs => rw [heq, components_name_append (by simp) hslash hptr]
  refine searchDirectory_map stricmp_comparesBy hat fun name m hsame hm => ?_
  have hne := ne_nil_of_sameName hsame (by simp)
  have hns := slash_notMem_of_sameName toupper_keepsSlash hsame hslash
  rcases hptr with hnil | ⟨rest, hrest⟩
  · rw [hnil]
    simp [findCaseInsensitive, FileTree.search, components_name hne hns]
  · have ih := ih _ m (hat.addName hm hne hns)
    rw [hrest] at ih ⊢
    rw [← ih, Option.map_map, Option.map_map]
    congr 1
    ext1 p
    simp [components_append, components_name hne hns]

theorem findCaseInsensitive_full {front : Bytes} (path : Bytes) {n : T.Node} (hat : At T (some front) n) :
    (findCaseInsensitive T (some front) path).map components =
      T.search (sameName toupper) n (components path) := by
  induction hlen : path.length using Nat.strong_induction_on generalizing front path n with
  | _ len ih =>
    subst hlen
    rcases path with - | ⟨c, tail⟩
    · rw [findCaseInsensitive]
      rfl
    · by_cases hc : c = slash
      · subst hc
        have hrest := ih tail.length (by simp) tail hat.addSlash rfl
        rw [findCaseInsensitive, if_pos rfl, Option.map_map, components_slash, ← hrest]
        rfl
      · refine findCaseInsensitive_name hat hc fun front m hm => ?_
        have hsub := List.dropWhile_sublist (· ≠ slash) (l := tail)
        refine ih _ ?_ _ hm rfl
        have := hsub.length_le
        simp only [List.length_drop, List.length_cons]
        omega

theorem findCaseInsensitive_components (path : Bytes) :
    (findCaseInsensitive T none path).map components =
      T.search (sameName toupper) (T.start path) (components path) := by
  rcases path with - | ⟨c, tail⟩
  · rw [findCaseInsensitive]
    rfl
  · by_cases hc : c = slash
    · subst hc
      have hat : At T (some ([] ++ [slash])) T.root := .full rfl
      have hrest := findCaseInsensitive_full tail hat
      rw [findCaseInsensitive, if_pos rfl, Option.map_map, components_slash]
      exact hrest
    · have hstart : T.start (c :: tail) = T.cwd := by simp [FileTree.start, isAbsolute, hc]
      rw [hstart]
      exact findCaseInsensitive_name .null hc fun front m hm => findCaseInsensitive_full _ hm

theorem isAbsolute_of_sameName {a b : Bytes} (rest rest' : Bytes) (h : sameName fold a b) (hfold : KeepsSlash fold)
    (hne : a ≠ []) (hslash : slash ∉ a) : isAbsolute (b ++ rest) = isAbsolute (a ++ rest') := by
  rw [isAbsolute_name rest (ne_nil_of_sameName h hne) (slash_notMem_of_sameName hfold h hslash),
    isAbsolute_name rest' hne hslash]

theorem findCaseInsensitive_shape {path p : Bytes} (h : findCaseInsensitive T fullpath path = some p) :
    p.length = path.length ∧ isAbsolute p = isAbsolute path := by
  induction hlen : path.length using Nat.strong_induction_on generalizing fullpath path p with
  | _ len ih =>
    subst hlen
    rcases path with - | ⟨c, tail⟩
    · rw [findCaseInsensitive] at h
      cases h
      exact ⟨rfl, rfl⟩
    · rw [findCaseInsensitive] at h
      split at h
      · next hc =>
        subst hc
        obtain ⟨rest, hrest, rfl⟩ := Option.map_eq_some_iff.mp h
        obtain ⟨hlen, -⟩ := ih tail.length (by simp) hrest rfl
        exact ⟨by simp [hlen], rfl⟩
      · next hc =>
        obtain ⟨name, rest, hsame, hrest, rfl⟩ := searchDirectory_some stricmp_comparesBy h
        obtain ⟨p', hp', rfl⟩ := Option.map_eq_some_iff.mp hrest
        have hcut := congrArg List.length (firstName c tail).1
        have hslash : slash ∉ c :: tail.takeWhile (· ≠ slash) := by
          rw [List.mem_cons, not_or]
          exact ⟨Ne.symm hc, slash_notMem_takeWhile tail⟩
        have hname := length_of_sameName hsame
        simp only [List.length_append, List.length_cons] at hcut hname
        obtain ⟨hlen, -⟩ := ih ((tail.dropWhile (· ≠ slash)).drop 1).length
          (by simp only [List.length_drop, List.length_cons]; omega) hp' rfl
        constructor
        · simp only [List.length_append, List.length_take, List.length_drop, List.length_cons] at hlen ⊢
          omega
        · rw [(firstName c tail).1]
          exact isAbsolute_of_sameName _ _ hsame toupper_keepsSlash (by simp) hslash

/-! ### What a path was looked for -/

/-- The paths are the same component by component, but for case. -/
def EqualIgnoringCase (path path' : Bytes) : Prop :=
  isAbsolute path = isAbsolute path' ∧ (components path).Forall₂ SameName (components path')

/-- What a caller sees: the result, and what has become of its path. -/
def outcome (path : Bytes) (found : Option Bytes) : Bool × Bytes := (found.isSome, found.getD path)

/-- A path of a tree was looked for without regard to case. -/
def Finds (T : FileTree) (path : Bytes) (result : Bool × Bytes) : Prop :=
  (result.1 = true ↔ ∃ path', T.Exists path' ∧ EqualIgnoringCase path path') ∧
    (result.1 = true →
      T.Exists result.2 ∧ EqualIgnoringCase path result.2 ∧ result.2.length = path.length) ∧
    (result.1 = false → result.2 = path)

theorem finds_of_search {path : Bytes} {found : Option Bytes} (hfold : ∀ a b, sameName fold a b ↔ SameName a b)
    (hsearch : found.map components = T.search (sameName fold) (T.start path) (components path))
    (hshape : ∀ p, found = some p → p.length = path.length ∧ isAbsolute p = isAbsolute path) :
    Finds T path (outcome path found) := by
  have hall : ∀ names wanted : List Bytes,
      names.Forall₂ (fun a b => sameName fold a b) wanted ↔ names.Forall₂ SameName wanted :=
    fun _ _ => ⟨.imp fun a b h => (hfold a b).mp h, .imp fun a b h => (hfold a b).mpr h⟩
  cases found with
  | none =>
    refine ⟨⟨nofun, ?_⟩, nofun, fun _ => rfl⟩
    rintro ⟨path', hex, habs, hsame⟩
    have hstart : T.start path' = T.start path := by rw [FileTree.start, FileTree.start, habs]
    rw [FileTree.Exists, FileTree.resolve, hstart] at hex
    have := FileTree.search_complete (sameName fold) ((hall _ _).mpr hsame) hex
    rw [← hsearch] at this
    cases this
  | some p =>
    obtain ⟨hlen, habs⟩ := hshape p rfl
    obtain ⟨hsame, hwalk⟩ := FileTree.search_sound (sameName fold) hsearch.symm
    have hex : T.Exists p := by
      rw [FileTree.Exists, FileTree.resolve, FileTree.start, habs]
      exact hwalk
    have heq : EqualIgnoringCase path p := ⟨habs.symm, (hall _ _).mp hsame⟩
    exact ⟨⟨fun _ => ⟨p, hex, heq⟩, fun _ => rfl⟩, fun _ => ⟨hex, heq, hlen⟩, nofun⟩

theorem findCaseInsensitive_finds (T : FileTree) (path : Bytes) :
    Finds T path (outcome path (findCaseInsensitive T none path)) :=
  finds_of_search (fun a b => by rw [sameName, beq_iff_eq]; rfl) (findCaseInsensitive_components path)
    fun _ h => findCaseInsensitive_shape h

end GnuPoc.E32
