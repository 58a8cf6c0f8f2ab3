import Mathlib.Data.List.Forall2
import GnuPoc.Lib.LittleEndian

/-!
# GnuPoc.Lib.FileTree — directories, paths, and the search for a path up to an equivalence of names

A file tree is a graph of nodes; a directory lists its entries in the order in which they are read, itself
among them as `.`.  A path is walked name by name from the root or from the working directory.
-/

namespace GnuPoc.Lib

def slash : UInt8 := 47

/-- `.` -/
def dot : Bytes := [46]

structure FileTree where
  Node : Type
  root : Node
  cwd : Node
  /-- the entries of a directory; `none` for any other file -/
  entries : Node → Option (List (Bytes × Node))
  nodup : ∀ {n es}, entries n = some es → (es.map Prod.fst).Nodup
  dot_mem : ∀ {n es}, entries n = some es → (dot, n) ∈ es

theorem findSome?_congr {α β : Type*} {f g : α → Option β} {l : List α} (h : ∀ x ∈ l, f x = g x) :
    l.findSome? f = l.findSome? g := by
  induction l with
  | nil => rfl
  | cons x l ih =>
    rw [List.findSome?_cons, List.findSome?_cons, h x List.mem_cons_self,
      ih fun y hy => h y (List.mem_cons_of_mem x hy)]

/-! ### Paths -/

/-- The names of a path; where two separators meet there is none. -/
def components (path : Bytes) : List Bytes := (path.splitOn slash).filter (· ≠ [])

@[simp] theorem components_nil : components [] = [] := rfl

theorem components_append (front rest : Bytes) :
    components (front ++ slash :: rest) = components front ++ components rest := by
  rw [components, List.splitOn_append_cons_self, List.filter_append]
  rfl

@[simp] theorem components_slash (rest : Bytes) : components (slash :: rest) = components rest :=
  components_append [] rest

theorem components_name {name : Bytes} (hne : name ≠ []) (hslash : slash ∉ name) :
    components name = [name] := by
  rw [components, List.splitOn_eq_singleton hslash]
  simp [hne]

/-- A path starts with a name: what follows it is nothing or a separator with the rest. -/
theorem components_name_append {name rest : Bytes} (hne : name ≠ []) (hslash : slash ∉ name)
    (hrest : rest = [] ∨ ∃ rest', rest = slash :: rest') :
    components (name ++ rest) = name :: components (rest.drop 1) := by
  rcases hrest with rfl | ⟨rest', rfl⟩
  · rw [List.append_nil, components_name hne hslash]
    rfl
  · rw [components_append, components_name hne hslash]
    rfl

def isAbsolute (path : Bytes) : Bool := path.head? == some slash

/-! ### Walking -/

namespace FileTree

variable {T : FileTree}

def lookup (T : FileTree) (n : T.Node) (name : Bytes) : Option T.Node :=
  (T.entries n).bind fun es => (es.find? fun e => e.1 = name).map Prod.snd

def walk (T : FileTree) : T.Node → List Bytes → Option T.Node
  | n, [] => some n
  | n, name :: names => (T.lookup n name).bind fun m => T.walk m names

/-- Where the walk of a path starts. -/
def start (T : FileTree) (path : Bytes) : T.Node := if isAbsolute path then T.root else T.cwd

/-- What a path names. -/
def resolve (T : FileTree) (path : Bytes) : Option T.Node := T.walk (T.start path) (components path)

/-- `opendir` and the loop over `readdir`. -/
def readdir (T : FileTree) (path : Bytes) : Option (List Bytes) :=
  ((T.resolve path).bind T.entries).map fun es => es.map Prod.fst

def Exists (T : FileTree) (path : Bytes) : Prop := (T.resolve path).isSome

theorem lookup_mem {n m : T.Node} {name : Bytes} {es : List (Bytes × T.Node)} (hes : T.entries n = some es)
    (hmem : (name, m) ∈ es) : T.lookup n name = some m := by
  have hfind : es.find? (fun e => e.1 = name) = some (name, m) := by
    obtain ⟨pre, post, rfl⟩ := List.append_of_mem hmem
    have hnodup := T.nodup hes
    rw [List.map_append, List.map_cons, List.nodup_append] at hnodup
    rw [List.find?_append, List.find?_eq_none.mpr]
    · simp
    · intro e he heq
      exact hnodup.2.2 e.1 (List.mem_map_of_mem he) name List.mem_cons_self (by simpa using heq)
  rw [lookup, hes, Option.bind_some, hfind]
  rfl

theorem walk_append (n : T.Node) (front rest : List Bytes) :
    T.walk n (front ++ rest) = (T.walk n front).bind fun m => T.walk m rest := by
  induction front generalizing n with
  | nil => rfl
  | cons name front ih =>
    rw [List.cons_append, walk, walk, Option.bind_assoc]
    congr
    ext1 m
    exact ih m

/-! ### Searching -/

variable (same : Bytes → Bytes → Bool)

/-- The first path, in the order of the directories, whose names are the same as the wanted ones up to
`same`. -/
def search (T : FileTree) (same : Bytes → Bytes → Bool) : T.Node → List Bytes → Option (List Bytes)
  | _, [] => some []
  | n, name :: names => (T.entries n).bind fun es => es.findSome? fun e =>
      if same name e.1 then (T.search same e.2 names).map (e.1 :: ·) else none

theorem search_sound {n : T.Node} {names found : List Bytes} (h : T.search same n names = some found) :
    names.Forall₂ (fun a b => same a b) found ∧ (T.walk n found).isSome := by
  induction names generalizing n found with
  | nil =>
    cases h
    exact ⟨.nil, rfl⟩
  | cons name names ih =>
    obtain ⟨es, hes, h⟩ := Option.bind_eq_some_iff.mp h
    obtain ⟨⟨name', m⟩, hmem, h⟩ := List.exists_of_findSome?_eq_some h
    obtain ⟨hsame, h⟩ := Option.ite_none_right_eq_some.mp h
    obtain ⟨rest, hrest, rfl⟩ := Option.map_eq_some_iff.mp h
    obtain ⟨hall, hwalk⟩ := ih hrest
    refine ⟨.cons hsame hall, ?_⟩
    rw [walk, lookup_mem hes hmem]
    exact hwalk

theorem search_complete {n : T.Node} {names wanted : List Bytes}
    (hall : names.Forall₂ (fun a b => same a b) wanted) (hwalk : (T.walk n wanted).isSome) :
    (T.search same n names).isSome := by
  induction hall generalizing n with
  | nil => rfl
  | @cons name name' names wanted hsame _ ih =>
    obtain ⟨o, ho⟩ := Option.isSome_iff_exists.mp hwalk
    obtain ⟨m, hm, hrest⟩ := Option.bind_eq_some_iff.mp ho
    obtain ⟨es, hes, hm⟩ := Option.bind_eq_some_iff.mp hm
    obtain ⟨⟨name'', m'⟩, hfind, rfl⟩ := Option.map_eq_some_iff.mp hm
    have heq : name'' = name' := by simpa using List.find?_some hfind
    obtain ⟨rest, hsearch⟩ := Option.isSome_iff_exists.mp (ih (by rw [hrest]; rfl))
    rw [search, hes, Option.bind_some, List.findSome?_isSome_iff]
    refine ⟨(name'', m'), List.mem_of_find?_eq_some hfind, ?_⟩
    rw [if_pos (by rw [heq]; exact hsame), hsearch]
    rfl

end FileTree

end GnuPoc.Lib
