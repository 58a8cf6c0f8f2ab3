import GnuPoc.E32.CaseInsensitive

/-!
# GnuPoc.Mif.CaseInsensitive — the directories of an output file, found without regard to case (`mifconv.cpp`)

`mifconv` looks for the directories a file is to be written to.  The name behind the last separator is that
of the file, which need not be there.
-/

namespace GnuPoc.Mif

open GnuPoc.Lib GnuPoc.E32

/-- `stricmp` of `mifconv.cpp`, which compares in small letters. -/
def stricmp : Bytes → Bytes → ℤ := foldedCmp tolower

/-- `findCaseInsensitive` of `mifconv.cpp`.  Without a `fullpath`, whatever stands in front of the first
separator is passed over. -/
def findCaseInsensitive (T : FileTree) (fullpath : Option Bytes) (path : Bytes) : Option Bytes :=
  let filename := path.takeWhile (· ≠ slash)
  match _hptr : path.dropWhile (· ≠ slash) with
  | [] => some path
  | _ :: next =>
    match fullpath with
    | none => (findCaseInsensitive T (some (filename ++ [slash])) next).map (filename ++ slash :: ·)
    | some front =>
      if filename = [] then (findCaseInsensitive T (some (front ++ [slash])) next).map (slash :: ·)
      else
        searchDirectory T stricmp (some front) filename fun name =>
          (findCaseInsensitive T (some (front ++ name ++ [slash])) next).map (slash :: ·)
termination_by path.length
decreasing_by
  all_goals
    have := (List.dropWhile_sublist (· ≠ slash) (l := path)).length_le
    rw [_hptr, List.length_cons] at this
    omega

theorem stricmp_comparesBy_tolower : ComparesBy stricmp tolower := by
  intro a b
  rw [stricmp, foldedCmp_eq_zero, sameName, beq_iff_eq]

theorem tolower_keepsSlash : KeepsSlash tolower := by
  have h : ∀ n : Fin 256, tolower (UInt8.ofFin n) = slash ↔ UInt8.ofFin n = slash := by decide +kernel
  exact fun c => h c.toFin

theorem toupper_tolower (c : UInt8) : toupper (tolower c) = toupper c := by
  have h : ∀ n : Fin 256, toupper (tolower (UInt8.ofFin n)) = toupper (UInt8.ofFin n) := by decide +kernel
  exact h c.toFin

theorem tolower_toupper (c : UInt8) : tolower (toupper c) = tolower c := by
  have h : ∀ n : Fin 256, tolower (toupper (UInt8.ofFin n)) = tolower (UInt8.ofFin n) := by decide +kernel
  exact h c.toFin

theorem sameName_tolower (a b : Bytes) : sameName tolower a b ↔ SameName a b := by
  have hup : ∀ s : Bytes, (s.map tolower).map toupper = s.map toupper := fun s => by simp [toupper_tolower]
  have hlow : ∀ s : Bytes, (s.map toupper).map tolower = s.map tolower := fun s => by simp [tolower_toupper]
  rw [sameName, beq_iff_eq, SameName]
  constructor
  · intro h
    rw [← hup, h, hup]
  · intro h
    rw [← hlow, h, hlow]

/-! ### The directories of a path -/

/-- A path through its last separator. -/
def directories (path : Bytes) : Bytes := (path.reverse.dropWhile (· ≠ slash)).reverse

/-- What stands behind the last separator. -/
def lastName (path : Bytes) : Bytes := (path.reverse.takeWhile (· ≠ slash)).reverse

theorem directories_append_lastName (path : Bytes) : directories path ++ lastName path = path := by
  rw [directories, lastName, ← List.reverse_append, List.takeWhile_append_dropWhile, List.reverse_reverse]

theorem directories_append (front next : Bytes) :
    directories (front ++ slash :: next) = front ++ slash :: directories next := by
  have hrev : (front ++ slash :: next).reverse = next.reverse ++ slash :: front.reverse := by simp
  have hdrop : (next.reverse ++ slash :: front.reverse).dropWhile (· ≠ slash) =
      next.reverse.dropWhile (· ≠ slash) ++ slash :: front.reverse := by
    rw [List.dropWhile_append]
    split
    · next h => rw [List.isEmpty_iff.mp h, List.nil_append, List.dropWhile_cons_of_neg (by simp)]
    · rfl
  rw [directories, hrev, hdrop, directories]
  simp

theorem directories_slash (path : Bytes) : directories (slash :: path) = slash :: directories path :=
  directories_append [] path

theorem lastName_append (front next : Bytes) : lastName (front ++ slash :: next) = lastName next := by
  have h := directories_append_lastName (front ++ slash :: next)
  rw [directories_append] at h
  conv_rhs at h => rw [← directories_append_lastName next]
  simpa using h

theorem directories_of_notMem {path : Bytes} (h : slash ∉ path) : directories path = [] := by
  rw [directories, List.reverse_eq_nil_iff, List.dropWhile_eq_nil_iff]
  intro c hc
  simpa using fun hs : c = slash => h (by rw [← hs]; exact List.mem_reverse.mp hc)

/-- A path with a separator: the name in front of the first one, and what follows it. -/
theorem cut_of_dropWhile {path next : Bytes} {c : UInt8} (h : path.dropWhile (· ≠ slash) = c :: next) :
    path = path.takeWhile (· ≠ slash) ++ slash :: next := by
  have hd := List.head?_dropWhile_not (fun c => decide (c ≠ slash)) path
  rw [h] at hd
  obtain rfl : c = slash := by simpa using hd
  conv_lhs => rw [← List.takeWhile_append_dropWhile (p := (· ≠ slash)) (l := path), h]

theorem notMem_of_dropWhile {path : Bytes} (h : path.dropWhile (· ≠ slash) = []) : slash ∉ path := by
  intro hs
  simpa using List.dropWhile_eq_nil_iff.mp h slash hs

/-! ### The search -/

variable {T : FileTree} {n : T.Node}

/-- All components but the last are found as the search of the tree finds them. -/
theorem findCaseInsensitive_directories {front : Bytes} (path : Bytes) {n : T.Node} (hat : At T (some front) n) :
    (findCaseInsensitive T (some front) path).map (fun p => components (directories p)) =
      T.search (sameName tolower) n (components (directories path)) := by
  induction hlen : path.length using Nat.strong_induction_on generalizing front path n with
  | _ len ih =>
    subst hlen
    rw [findCaseInsensitive]
    split
    · next hptr =>
      rw [Option.map_some, directories_of_notMem (notMem_of_dropWhile hptr)]
      rfl
    · next c next hptr =>
      have hcut := cut_of_dropWhile hptr
      have hlen : next.length < path.length := by
        rw [hcut]
        simp
        omega
      dsimp only
      split
      · next hnil =>
        rw [hnil, List.nil_append] at hcut
        conv_rhs => rw [hcut, directories_slash, components_slash]
        rw [Option.map_map, ← ih next.length hlen next hat.addSlash rfl]
        congr 1
        ext1 p
        simp [directories_slash]
      · next hne =>
        have hslash := slash_notMem_takeWhile path
        conv_rhs => rw [hcut, directories_append, components_append, components_name hne hslash,
          List.singleton_append]
        refine searchDirectory_map stricmp_comparesBy_tolower hat fun name m hsame hm => ?_
        have hname := ne_nil_of_sameName hsame hne
        have hns := slash_notMem_of_sameName tolower_keepsSlash hsame hslash
        rw [Option.map_map, ← ih next.length hlen next (hat.addName hm hname hns) rfl, Option.map_map]
        congr 1
        ext1 p
        simp [directories_append, components_append, components_name hname hns]

/-- The path that was found is as long as the wanted one and ends in the same name. -/
theorem findCaseInsensitive_shape_lastName {front path p : Bytes}
    (h : findCaseInsensitive T (some front) path = some p) :
    p.length = path.length ∧ lastName p = lastName path := by
  induction hlen : path.length using Nat.strong_induction_on generalizing front path p with
  | _ len ih =>
    subst hlen
    rw [findCaseInsensitive] at h
    split at h
    · cases h
      exact ⟨rfl, rfl⟩
    · next c next hptr =>
      have hcut := cut_of_dropWhile hptr
      have hlen := congrArg List.length hcut
      simp only [List.length_append, List.length_cons] at hlen
      have hlast : lastName path = lastName next := by
        rw [hcut, lastName_append]
      dsimp only at h
      split at h
      · next hnil =>
        rw [hnil, List.length_nil] at hlen
        obtain ⟨rest, hrest, rfl⟩ := Option.map_eq_some_iff.mp h
        obtain ⟨hrlen, hrlast⟩ := ih next.length (by omega) hrest rfl
        exact ⟨by simp only [List.length_cons]; omega, by rw [hlast, ← hrlast, ← lastName_append [] rest]; rfl⟩
      · next hne =>
        have hne : 0 < (path.takeWhile (· ≠ slash)).length := List.length_pos_iff.mpr hne
        obtain ⟨name, rest', hsame, hrest, rfl⟩ := searchDirectory_some stricmp_comparesBy_tolower h
        obtain ⟨rest, hfound, rfl⟩ := Option.map_eq_some_iff.mp hrest
        obtain ⟨hrlen, hrlast⟩ := ih next.length (by omega) hfound rfl
        have hname := length_of_sameName hsame
        exact ⟨by simp only [List.length_append, List.length_cons]; omega,
          by rw [hlast, ← hrlast, lastName_append]⟩

/-- The directories of a path were looked for without regard to case, and the last name was left alone. -/
def FindsDirectories (T : FileTree) (path : Bytes) (result : Bool × Bytes) : Prop :=
  Finds T (directories path) (result.1, directories result.2) ∧ lastName result.2 = lastName path

theorem findCaseInsensitive_absolute (T : FileTree) (path : Bytes) :
    FindsDirectories T (slash :: path) (outcome (slash :: path) (findCaseInsensitive T none (slash :: path))) := by
  have hnext : findCaseInsensitive T none (slash :: path) =
      (findCaseInsensitive T (some [slash]) path).map (slash :: ·) := by
    rw [findCaseInsensitive]
    rfl
  have hat : At T (some ([] ++ [slash])) T.root := .full rfl
  have hsearch := findCaseInsensitive_directories path hat
  rw [hnext]
  have hfinds : Finds T (directories (slash :: path)) (outcome (directories (slash :: path))
      ((findCaseInsensitive T (some [slash]) path).map fun p => directories (slash :: p))) := by
    refine finds_of_search sameName_tolower ?_ ?_
    · rw [Option.map_map, directories_slash, components_slash]
      change _ = T.search (sameName tolower) T.root (components (directories path))
      rw [← hsearch]
      congr 1
      ext1 p
      simp [directories_slash]
    · intro p hp
      obtain ⟨rest, hrest, rfl⟩ := Option.map_eq_some_iff.mp hp
      obtain ⟨hlen, hlast⟩ := findCaseInsensitive_shape_lastName hrest
      have h1 := congrArg List.length (directories_append_lastName rest)
      have h2 := congrArg List.length (directories_append_lastName path)
      rw [directories_slash, directories_slash]
      simp only [List.length_append, hlast] at h1 h2
      exact ⟨by simp only [List.length_cons]; omega, rfl⟩
  cases hfound : findCaseInsensitive T (some [slash]) path with
  | none =>
    rw [hfound] at hfinds
    exact ⟨hfinds, rfl⟩
  | some p =>
    rw [hfound] at hfinds
    obtain ⟨-, hlast⟩ := findCaseInsensitive_shape_lastName hfound
    refine ⟨hfinds, ?_⟩
    have hl : ∀ q, lastName (slash :: q) = lastName q := lastName_append []
    rw [outcome, Option.map_some, Option.getD_some, hl, hl, hlast]

/-- **Paths without regard to case.**  In every tree, `elf2e32` finds a path exactly when one that is the same but for
case exists, and puts that in its place; `mifconv` does so for the directories of an absolute path. -/
theorem findCaseInsensitive_correct (T : FileTree) (path : Bytes) :
    Finds T path (outcome path (E32.findCaseInsensitive T none path)) ∧
      (isAbsolute path → FindsDirectories T path (outcome path (findCaseInsensitive T none path))) := by
  refine ⟨findCaseInsensitive_finds T path, fun habs => ?_⟩
  rcases path with - | ⟨c, path⟩
  · cases habs
  · obtain rfl : c = slash := by simpa [isAbsolute] using habs
    exact findCaseInsensitive_absolute T path

inductive IconNode
  | top
  | icons
  | star

/-- A tree with the file `/Icons/Star.svg`. -/
def iconTree : FileTree where
  Node := IconNode
  root := .top
  cwd := .top
  entries
    | .top => some [(dot, .top), (chars "Icons", .icons)]
    | .icons => some [(dot, .icons), (chars "Star.svg", .star)]
    | .star => none
  nodup {n es} h := by
    cases n <;> cases h <;> decide
  dot_mem {n es} h := by
    cases n <;> cases h <;> exact List.mem_cons_self

theorem findCaseInsensitive_correct_icon :
    Finds iconTree (chars "icons/STAR.svg")
        (outcome (chars "icons/STAR.svg") (E32.findCaseInsensitive iconTree none (chars "icons/STAR.svg"))) ∧
      FindsDirectories iconTree (chars "/ICONS/star.svg")
        (outcome (chars "/ICONS/star.svg") (findCaseInsensitive iconTree none (chars "/ICONS/star.svg"))) :=
  ⟨(findCaseInsensitive_correct iconTree (chars "icons/STAR.svg")).1,
    (findCaseInsensitive_correct iconTree (chars "/ICONS/star.svg")).2 rfl⟩

/-- A tree of one empty directory. -/
def emptyTree : FileTree where
  Node := Unit
  root := ()
  cwd := ()
  entries _ := some [(dot, ())]
  nodup h := by cases h; exact List.nodup_singleton _
  dot_mem h := by cases h; exact List.mem_singleton_self _

/-- An output file that is not there is found. -/
theorem missing_file_found :
    ¬ ∀ (T : FileTree) (path : Bytes),
      Finds T path (outcome path (E32.findCaseInsensitive T none path)) ∧
        Finds T path (outcome path (findCaseInsensitive T none path)) := by
  intro h
  obtain ⟨hiff, -, -⟩ := (h emptyTree (chars "/a")).2
  have hfound : findCaseInsensitive emptyTree none (chars "/a") = some (chars "/a") := by
    have hone : findCaseInsensitive emptyTree (some [slash]) (chars "a") = some (chars "a") := by
      rw [findCaseInsensitive]
      rfl
    have htwo : findCaseInsensitive emptyTree none (chars "/a") =
        (findCaseInsensitive emptyTree (some [slash]) (chars "a")).map (slash :: ·) := by
      rw [findCaseInsensitive]
      rfl
    rw [htwo, hone]
    rfl
  rw [hfound] at hiff
  obtain ⟨path', hex, habs, hsame⟩ := hiff.mp rfl
  have hcomps : components (chars "/a") = [chars "a"] := rfl
  rw [hcomps] at hsame
  obtain ⟨name, names, hname, -, hpath⟩ := List.forall₂_cons_left_iff.mp hsame
  obtain ⟨m, hm⟩ := Option.isSome_iff_exists.mp hex
  rw [FileTree.resolve, hpath] at hm
  obtain ⟨k, hk, -⟩ := Option.bind_eq_some_iff.mp hm
  have hne : dot ≠ name := by
    rintro rfl
    cases hname
  simp [FileTree.lookup, emptyTree, hne] at hk

end GnuPoc.Mif
