import GnuPoc.Pkg.Token
import GnuPoc.Lib.Outcome
import GnuPoc.Lib.Stdio

/-!
# GnuPoc.Pkg.DoesExist — the file behind a name in a package file (`parsepkg.cpp`)

A name is the characters in front of its terminator; the terminator is stored like any other character.
`getenv` is a parameter, and so is which paths can be opened.  Reading on behind the terminator of the name
and storing behind the end of a buffer stop the model.
-/

namespace GnuPoc.Pkg

open GnuPoc.Lib

inductive Stray
  | outsideName
  | outsideBuffer
  deriving DecidableEq, Repr

def MAX_PATH : ℕ := 260

/-- `*out++ = c`, for a buffer of `size` elements. -/
def store {α : Type} (size : ℕ) (buf : List α) (c : α) : Except Stray (List α) :=
  if buf.length < size then .ok (buf ++ [c]) else .error .outsideBuffer

def storeAll {α : Type} (size : ℕ) (buf cs : List α) : Except Stray (List α) := cs.foldlM (store size) buf

/-- A `char` as a `WCHAR`: its sign is extended. -/
def wideChar (c : UInt8) : UInt32 := c.toInt8.toInt32.toUInt32

/-- The string in a buffer of `char`s. -/
def cString (buf : List UInt8) : List UInt8 := buf.takeWhile (· ≠ 0)

/-- The value of a variable, or else of the one in capitals. -/
def getVariable (getenv : Bytes → Option Bytes) (varName : Bytes) : Option Bytes :=
  (getenv varName).orElse fun _ => getenv (varName.map toupper)

/-- What takes the place of a reference. -/
def substitute (getenv : Bytes → Option Bytes) (varName : Bytes) (out : WStr) : Except Stray WStr :=
  match getVariable getenv varName with
  | some var => storeAll MAX_PATH out (var.map wideChar)
  | none =>
    -- `i` is still where the loop over the capitals has left it
    let i := varName.length
    storeAll MAX_PATH out (wstr "$(" ++ (varName.drop i).map wideChar ++ wstr ")")

/-- The loop over the name; `out` is what `tempStr` holds. -/
def expand (getenv : Bytes → Option Bytes) (tmp out : WStr) : Except Stray WStr :=
  match tmp with
  | [] => do
    let _ ← store MAX_PATH out 0
    .ok out
  | 92 :: tmp => do
    let out ← store MAX_PATH out 47
    expand getenv tmp out
  | 36 :: 40 :: tmp => do
    let name ← storeAll MAX_PATH [] ((tmp.takeWhile (· ≠ 41)).map UInt32.toUInt8)
    let _ ← store MAX_PATH name 0
    let out ← substitute getenv (cString name) out
    if tmp.dropWhile (· ≠ 41) = [] then .error .outsideName
    else expand getenv (tmp.dropWhile (· ≠ 41)).tail out
  | c :: tmp => do
    let out ← store MAX_PATH out c
    expand getenv tmp out
termination_by tmp.length
decreasing_by
  · simp
  · have := (List.dropWhile_sublist (· ≠ (41 : UInt32)) (l := tmp)).length_le
    simp only [List.length_tail, List.length_cons]
    omega
  · simp

/-- The end of `DoesExist`: the paths that it tests, in order, and the one under which the file was found. -/
def testPaths (opens : WStr → Bool) (m_pszSearchDir tempStr : WStr) :
    Except Stray (List WStr × Option WStr) :=
  if opens tempStr then .ok ([tempStr], some tempStr)
  else if m_pszSearchDir = [] then .ok ([tempStr], none)
  else do
    let pszNewPath ← storeAll MAX_PATH [] (m_pszSearchDir ++ tempStr)
    let _ ← store MAX_PATH pszNewPath 0
    if opens pszNewPath then .ok ([tempStr, pszNewPath], some pszNewPath) else .ok ([tempStr, pszNewPath], none)

def DoesExist (getenv : Bytes → Option Bytes) (opens : WStr → Bool) (m_pszSearchDir pszFile : WStr) :
    Except Stray (List WStr × Option WStr) := do
  let tempStr ← expand getenv pszFile []
  testPaths opens m_pszSearchDir tempStr

/-! ### The path a name stands for -/

/-- What a name is made of. -/
inductive Piece
  | char (c : UInt32)
  | reference (name : WStr)
  /-- `$(` that is not closed, with the rest of the name -/
  | unclosed (rest : WStr)

def pieces (name : WStr) : List Piece :=
  match name with
  | 36 :: 40 :: s =>
    if 41 ∈ s then .reference (s.takeWhile (· ≠ 41)) :: pieces (s.dropWhile (· ≠ 41)).tail else [.unclosed s]
  | c :: s => .char c :: pieces s
  | [] => []
termination_by name.length
decreasing_by
  · have := (List.dropWhile_sublist (· ≠ (41 : UInt32)) (l := s)).length_le
    simp only [List.length_tail, List.length_cons]
    omega
  · simp

/-- A backslash becomes a slash. -/
def pathChar (c : UInt32) : UInt32 := if c = 92 then 47 else c

/-- The variable of a reference. -/
def variableOf (getenv : Bytes → Option Bytes) (name : WStr) : Option Bytes :=
  getVariable getenv (cString (name.map UInt32.toUInt8))

/-- What a piece of a name stands for: a variable that is not set stays as it is written. -/
def Piece.path (getenv : Bytes → Option Bytes) : Piece → WStr
  | char c => [pathChar c]
  | reference name =>
    match variableOf getenv name with
    | some var => var.map UInt8.toUInt32
    | none => wstr "$(" ++ name ++ wstr ")"
  | unclosed rest => wstr "$(" ++ rest.map pathChar

/-- The path that a name stands for. -/
def expansion (getenv : Bytes → Option Bytes) (name : WStr) : WStr :=
  (pieces name).flatMap (Piece.path getenv)

/-! ### What the loop stores -/

theorem store_eq_ok {α : Type} {size : ℕ} {buf r : List α} {c : α} :
    store size buf c = .ok r ↔ r = buf ++ [c] ∧ r.length ≤ size := by
  rw [store]
  constructor
  · intro h
    split at h
    · cases h
      exact ⟨rfl, by simp; omega⟩
    · cases h
  · rintro ⟨rfl, hle⟩
    rw [if_pos (by simp at hle; omega)]

theorem storeAll_eq_ok {α : Type} {size : ℕ} {buf cs r : List α} (hbuf : buf.length ≤ size) :
    storeAll size buf cs = .ok r ↔ r = buf ++ cs ∧ r.length ≤ size := by
  induction cs generalizing buf with
  | nil =>
    rw [List.append_nil]
    constructor
    · rintro ⟨⟩
      exact ⟨rfl, hbuf⟩
    · rintro ⟨rfl, -⟩
      rfl
  | cons c cs ih =>
    rw [storeAll, List.foldlM_cons, bind_eq_ok]
    constructor
    · rintro ⟨buf', hstore, hrest⟩
      obtain ⟨rfl, hle⟩ := store_eq_ok.mp hstore
      obtain ⟨rfl, hr⟩ := (ih hle).mp hrest
      exact ⟨by simp, hr⟩
    · rintro ⟨rfl, hr⟩
      have hle : (buf ++ [c]).length ≤ size := by
        simp only [List.length_append, List.length_cons, List.length_nil] at hr ⊢
        omega
      exact ⟨buf ++ [c], store_eq_ok.mpr ⟨rfl, hle⟩, (ih hle).mpr ⟨by simp, hr⟩⟩

/-- What the loop stores for a piece. -/
def Piece.written (getenv : Bytes → Option Bytes) : Piece → WStr
  | char c => [pathChar c]
  | reference name =>
    match variableOf getenv name with
    | some var => var.map wideChar
    | none => wstr "$()"
  | unclosed _ => []

/-- A piece that the loop reads to its end. -/
def Piece.Read : Piece → Prop
  | char _ => True
  | reference name => name.length < MAX_PATH
  | unclosed _ => False

variable {getenv : Bytes → Option Bytes}

theorem expand_nil {out res : WStr} : expand getenv [] out = .ok res ↔ res = out ∧ res.length < MAX_PATH := by
  rw [expand, bind_eq_ok]
  constructor
  · rintro ⟨buf, hstore, hres⟩
    cases hres
    obtain ⟨rfl, hle⟩ := store_eq_ok.mp hstore
    exact ⟨rfl, by simpa [Nat.succ_le_iff] using hle⟩
  · rintro ⟨rfl, hlt⟩
    exact ⟨res ++ [0], store_eq_ok.mpr ⟨rfl, by simpa [Nat.succ_le_iff] using hlt⟩, rfl⟩

theorem expand_char {c : UInt32} {s out : WStr} (h : ∀ t, ¬ (c = 36 ∧ s = 40 :: t)) :
    expand getenv (c :: s) out = store MAX_PATH out (pathChar c) >>= expand getenv s := by
  by_cases hc : c = 92
  · subst hc
    rw [expand]
    rfl
  · rw [expand]
    · rw [pathChar, if_neg hc]
    · exact hc
    · exact fun t hc ht => h t ⟨hc, ht⟩

theorem substitute_eq_ok {name out res : WStr} (hout : out.length ≤ MAX_PATH) :
    substitute getenv (cString (name.map UInt32.toUInt8)) out = .ok res ↔
      res = out ++ (Piece.reference name).written getenv ∧ res.length ≤ MAX_PATH := by
  rw [Piece.written, substitute, variableOf]
  cases getVariable getenv (cString (name.map UInt32.toUInt8)) with
  | some var => exact storeAll_eq_ok hout
  | none =>
    simp only [List.drop_length, List.map_nil]
    exact storeAll_eq_ok hout

theorem dropWhile_ne_nil {s : WStr} : s.dropWhile (· ≠ 41) ≠ [] ↔ 41 ∈ s := by
  rw [Ne, List.dropWhile_eq_nil_iff]
  simp

theorem expand_reference {s out res : WStr} (hout : out.length ≤ MAX_PATH) :
    expand getenv (36 :: 40 :: s) out = .ok res ↔
      (s.takeWhile (· ≠ 41)).length < MAX_PATH ∧ 41 ∈ s ∧
        (out ++ (Piece.reference (s.takeWhile (· ≠ 41))).written getenv).length ≤ MAX_PATH ∧
        expand getenv (s.dropWhile (· ≠ 41)).tail
          (out ++ (Piece.reference (s.takeWhile (· ≠ 41))).written getenv) = .ok res := by
  rw [expand, bind_eq_ok]
  constructor
  · rintro ⟨name, hname, h⟩
    obtain ⟨rfl, -⟩ := (storeAll_eq_ok (Nat.zero_le _)).mp hname
    obtain ⟨_, hnul, h⟩ := bind_eq_ok.mp h
    obtain ⟨rfl, hlen⟩ := store_eq_ok.mp hnul
    obtain ⟨out', hout', h⟩ := bind_eq_ok.mp h
    obtain ⟨rfl, hle⟩ := (substitute_eq_ok hout).mp hout'
    split at h
    · cases h
    · next hne => exact ⟨by simpa [Nat.succ_le_iff] using hlen, dropWhile_ne_nil.mp hne, hle, h⟩
  · rintro ⟨hlen, hclosed, hle, h⟩
    refine ⟨_, (storeAll_eq_ok (Nat.zero_le _)).mpr ⟨rfl, by simpa using hlen.le⟩, ?_⟩
    refine bind_eq_ok.mpr ⟨_, store_eq_ok.mpr ⟨rfl, by simpa [Nat.succ_le_iff] using hlen⟩, ?_⟩
    refine bind_eq_ok.mpr ⟨_, (substitute_eq_ok hout).mpr ⟨rfl, hle⟩, ?_⟩
    rw [if_neg (dropWhile_ne_nil.mpr hclosed)]
    exact h

/-- **The loop.**  It stores piece after piece, as long as every piece is closed and fits. -/
theorem expand_eq_ok {name out res : WStr} (hout : out.length ≤ MAX_PATH) :
    expand getenv name out = .ok res ↔
      (∀ p ∈ pieces name, p.Read) ∧ res = out ++ (pieces name).flatMap (Piece.written getenv) ∧
        res.length < MAX_PATH := by
  induction name using pieces.induct generalizing out with
  | case1 s hclosed ih =>
    rw [expand_reference hout, pieces, if_pos hclosed, List.forall_mem_cons, List.flatMap_cons, ← List.append_assoc]
    constructor
    · rintro ⟨hlen, -, hle, h⟩
      obtain ⟨hread, hres, hlt⟩ := (ih hle).mp h
      exact ⟨⟨hlen, hread⟩, hres, hlt⟩
    · rintro ⟨⟨hlen, hread⟩, rfl, hlt⟩
      have hle : (out ++ (Piece.reference (s.takeWhile (· ≠ 41))).written getenv).length ≤ MAX_PATH := by
        rw [List.length_append] at hlt
        omega
      exact ⟨hlen, hclosed, hle, (ih hle).mpr ⟨hread, rfl, hlt⟩⟩
  | case2 s hopen =>
    rw [expand_reference hout, pieces, if_neg hopen]
    simp [hopen, Piece.Read]
  | case3 c s h ih =>
    have hc : ∀ t, ¬ (c = 36 ∧ s = 40 :: t) := fun t ht => h t ht.1 ht.2
    have hpieces : pieces (c :: s) = .char c :: pieces s := by
      rw [pieces]
      exact h
    rw [expand_char hc, hpieces, bind_eq_ok, List.forall_mem_cons, List.flatMap_cons, ← List.append_assoc]
    constructor
    · rintro ⟨out', hstore, h⟩
      obtain ⟨rfl, hle⟩ := store_eq_ok.mp hstore
      obtain ⟨hread, hres, hlt⟩ := (ih hle).mp h
      exact ⟨⟨trivial, hread⟩, hres, hlt⟩
    · rintro ⟨⟨-, hread⟩, rfl, hlt⟩
      have hle : (out ++ [pathChar c]).length ≤ MAX_PATH := by
        rw [List.length_append, Piece.written] at hlt
        omega
      exact ⟨_, store_eq_ok.mpr ⟨rfl, hle⟩, (ih hle).mpr ⟨hread, rfl, hlt⟩⟩
  | case4 =>
    rw [expand_nil, pieces]
    simp

/-! ### When it is the path -/

/-- A piece that is replaced by what it stands for: a reference is closed and fits the buffer of its name, and
its variable is set to a value in ASCII. -/
def Piece.Fine (getenv : Bytes → Option Bytes) : Piece → Prop
  | char _ => True
  | reference name => name.length < MAX_PATH ∧ (∀ var, variableOf getenv name = some var → ∀ c ∈ var, c < 128) ∧
      (variableOf getenv name = none → name = [])
  | unclosed _ => False

theorem wideChar_eq_iff (c : UInt8) : wideChar c = c.toUInt32 ↔ c < 128 := by
  have h : ∀ n : Fin 256, wideChar (UInt8.ofFin n) = (UInt8.ofFin n).toUInt32 ↔ UInt8.ofFin n < 128 := by
    decide +kernel
  exact h c.toFin

theorem wstr_reference_eq_iff (name : WStr) : wstr "$()" = wstr "$(" ++ (name ++ wstr ")") ↔ name = [] := by
  constructor
  · intro h
    have hlen := congrArg List.length h
    simp [wstr] at hlen
    exact hlen
  · rintro rfl
    rfl

theorem Piece.written_eq_path {p : Piece} (hread : p.Read) :
    p.written getenv = p.path getenv ↔ p.Fine getenv := by
  cases p with
  | char c => exact iff_of_true rfl trivial
  | unclosed rest => exact hread.elim
  | reference name =>
    simp only [written, path, Fine]
    cases variableOf getenv name with
    | some var => simp [wideChar_eq_iff, show name.length < MAX_PATH from hread]
    | none => simp [wstr_reference_eq_iff, show name.length < MAX_PATH from hread]

theorem Piece.length_written_le {p : Piece} (hread : p.Read) :
    (p.written getenv).length ≤ (p.path getenv).length := by
  cases p with
  | char c => exact le_rfl
  | unclosed rest => exact hread.elim
  | reference name =>
    simp only [written, path]
    cases variableOf getenv name with
    | some var => simp
    | none => simp [wstr]

theorem length_flatMap_le {α β : Type} {f g : α → List β} {l : List α}
    (hle : ∀ x ∈ l, (f x).length ≤ (g x).length) : (l.flatMap f).length ≤ (l.flatMap g).length := by
  induction l with
  | nil => exact le_rfl
  | cons x l ih =>
    rw [List.flatMap_cons, List.flatMap_cons, List.length_append, List.length_append]
    exact Nat.add_le_add (hle x List.mem_cons_self) (ih fun y hy => hle y (List.mem_cons_of_mem x hy))

theorem flatMap_eq_iff {α β : Type} {f g : α → List β} {l : List α} (hle : ∀ x ∈ l, (f x).length ≤ (g x).length) :
    l.flatMap f = l.flatMap g ↔ ∀ x ∈ l, f x = g x := by
  induction l with
  | nil => simp
  | cons x l ih =>
    have hrest := length_flatMap_le fun y hy => hle y (List.mem_cons_of_mem x hy)
    have ih := ih fun y hy => hle y (List.mem_cons_of_mem x hy)
    rw [List.flatMap_cons, List.flatMap_cons, List.forall_mem_cons, ← ih]
    constructor
    · intro h
      have hlen := congrArg List.length h
      have hx := hle x List.mem_cons_self
      rw [List.length_append, List.length_append] at hlen
      exact List.append_inj h (by omega)
    · rintro ⟨hx, hl⟩
      rw [hx, hl]

theorem Piece.Fine.read {p : Piece} (h : p.Fine getenv) : p.Read := by
  cases p with
  | char c => trivial
  | reference name => exact h.1
  | unclosed rest => exact h

theorem expand_eq_expansion {name : WStr} : expand getenv name [] = .ok (expansion getenv name) ↔
    (∀ p ∈ pieces name, p.Fine getenv) ∧ (expansion getenv name).length < MAX_PATH := by
  rw [expand_eq_ok (Nat.zero_le _), List.nil_append, expansion]
  constructor
  · rintro ⟨hread, heq, hlt⟩
    have hall := (flatMap_eq_iff fun p hp => Piece.length_written_le (hread p hp)).mp heq.symm
    exact ⟨fun p hp => (Piece.written_eq_path (hread p hp)).mp (hall p hp), hlt⟩
  · rintro ⟨hfine, hlt⟩
    have hread : ∀ p ∈ pieces name, p.Read := fun p hp => (hfine p hp).read
    have hall : ∀ p ∈ pieces name, p.written getenv = p.path getenv :=
      fun p hp => (Piece.written_eq_path (hread p hp)).mpr (hfine p hp)
    exact ⟨hread, ((flatMap_eq_iff fun p hp => Piece.length_written_le (hread p hp)).mpr hall).symm, hlt⟩

/-- The search directory is put in front of the path only where that is not found. -/
theorem testPaths_ok {opens : WStr → Bool} {m_pszSearchDir tempStr : WStr} {tested : List WStr} {found : Option WStr}
    (h : testPaths opens m_pszSearchDir tempStr = .ok (tested, found)) :
    tested.head? = some tempStr ∧
      (opens tempStr ∨ m_pszSearchDir = [] ∨ (m_pszSearchDir ++ tempStr).length < MAX_PATH) := by
  rw [testPaths] at h
  split at h
  · next hopen =>
    cases h
    exact ⟨rfl, .inl hopen⟩
  · split at h
    · next hdir =>
      cases h
      exact ⟨rfl, .inr (.inl hdir)⟩
    · obtain ⟨pszNewPath, hpath, h⟩ := bind_eq_ok.mp h
      obtain ⟨rfl, -⟩ := (storeAll_eq_ok (Nat.zero_le _)).mp hpath
      obtain ⟨_, hnul, h⟩ := bind_eq_ok.mp h
      obtain ⟨rfl, hlen⟩ := store_eq_ok.mp hnul
      refine ⟨?_, .inr (.inr ?_)⟩
      · split at h <;> cases h <;> rfl
      · rw [List.length_append] at hlen
        exact Nat.lt_of_succ_le hlen

theorem testPaths_total {opens : WStr → Bool} {m_pszSearchDir tempStr : WStr}
    (h : opens tempStr ∨ m_pszSearchDir = [] ∨ (m_pszSearchDir ++ tempStr).length < MAX_PATH) :
    ∃ tested found, testPaths opens m_pszSearchDir tempStr = .ok (tempStr :: tested, found) := by
  rw [testPaths]
  split
  · exact ⟨_, _, rfl⟩
  · next hopen =>
    split
    · exact ⟨_, _, rfl⟩
    · next hdir =>
      have hlen : (m_pszSearchDir ++ tempStr).length < MAX_PATH := (h.resolve_left hopen).resolve_left hdir
      have hpath : storeAll MAX_PATH [] (m_pszSearchDir ++ tempStr) = .ok (m_pszSearchDir ++ tempStr) :=
        (storeAll_eq_ok (Nat.zero_le _)).mpr ⟨rfl, hlen.le⟩
      have hnul : store MAX_PATH (m_pszSearchDir ++ tempStr) 0 = .ok (m_pszSearchDir ++ tempStr ++ [0]) := by
        refine store_eq_ok.mpr ⟨rfl, ?_⟩
        rw [List.length_append]
        exact Nat.succ_le_of_lt hlen
      by_cases hnew : opens (m_pszSearchDir ++ tempStr)
      · exact ⟨_, _, bind_eq_ok.mpr ⟨_, hpath, bind_eq_ok.mpr ⟨_, hnul, if_pos hnew⟩⟩⟩
      · exact ⟨_, _, bind_eq_ok.mpr ⟨_, hpath, bind_eq_ok.mpr ⟨_, hnul, if_neg hnew⟩⟩⟩

/-- `DoesExist` comes to its end inside of the name and of its buffers, and tests the path that the name stands
for. -/
def TestsExpansion (getenv : Bytes → Option Bytes) (opens : WStr → Bool) (m_pszSearchDir pszFile : WStr) : Prop :=
  ∃ tested found, DoesExist getenv opens m_pszSearchDir pszFile = .ok (tested, found) ∧
    tested.head? = some (expansion getenv pszFile)

/-- **Names of files.**  The path a name stands for is tested, and nothing else read or written, exactly when every
reference is closed and names a variable with a value in ASCII, and the path fits its buffer, behind the search
directory as well where it is looked for there. -/
theorem DoesExist_testsExpansion_iff (getenv : Bytes → Option Bytes) (opens : WStr → Bool)
    (m_pszSearchDir pszFile : WStr) : TestsExpansion getenv opens m_pszSearchDir pszFile ↔
      (∀ p ∈ pieces pszFile, p.Fine getenv) ∧ (expansion getenv pszFile).length < MAX_PATH ∧
        (opens (expansion getenv pszFile) ∨ m_pszSearchDir = [] ∨
          (m_pszSearchDir ++ expansion getenv pszFile).length < MAX_PATH) := by
  rw [← and_assoc, ← expand_eq_expansion]
  constructor
  · rintro ⟨tested, found, h, hhead⟩
    obtain ⟨tempStr, hexpand, h⟩ := bind_eq_ok.mp h
    obtain ⟨htemp, hdir⟩ := testPaths_ok h
    obtain rfl : tempStr = expansion getenv pszFile := by simpa [htemp] using hhead
    exact ⟨hexpand, hdir⟩
  · rintro ⟨hexpand, hdir⟩
    obtain ⟨tested, found, h⟩ := testPaths_total hdir
    exact ⟨_, _, bind_eq_ok.mpr ⟨_, hexpand, h⟩, rfl⟩

/-- The name `$(A)` where `A` is not set. -/
theorem unset_dropped : ¬ ∀ (getenv : Bytes → Option Bytes) (opens : WStr → Bool) (m_pszSearchDir pszFile : WStr),
    TestsExpansion getenv opens m_pszSearchDir pszFile := by
  intro h
  obtain ⟨tested, found, hrun, hhead⟩ := h (fun _ => none) (fun _ => false) [] (wstr "$(A)")
  obtain ⟨tempStr, hexpand, hrun⟩ := bind_eq_ok.mp hrun
  obtain ⟨-, htemp, -⟩ := (expand_eq_ok (Nat.zero_le _)).mp hexpand
  obtain ⟨htested, -⟩ := testPaths_ok hrun
  have hpieces : pieces (wstr "$(A)") = [.reference (wstr "A")] := by
    change pieces (36 :: 40 :: wstr "A)") = _
    rw [pieces, if_pos (by decide)]
    change _ :: pieces [] = _
    rw [pieces]
    rfl
  rw [htested, htemp, expansion, hpieces] at hhead
  exact absurd hhead (by decide)

end GnuPoc.Pkg
