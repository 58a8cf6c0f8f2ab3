import GnuPoc.Lib.Outcome
import GnuPoc.Lib.Stdio

/-!
# GnuPoc.Mif.CommandLine — the arguments of `mifconv` (`mifconv.cpp`)

The arguments come from the command line and from parameter files; every image is opened once to see
whether it is a bitmap and how long it is.  File names and arguments are byte strings without NUL.
`strtok` keeps its place in a static variable, which a parameter file inside a parameter file overwrites; the place in
the buffer of a file that has been left is taken as the NUL it was.  What stands in front of an empty line, `line[-1]`,
is not looked at.
-/

namespace GnuPoc.Mif

open GnuPoc.Lib

/-- The files that can be opened for reading. -/
structure Env where
  readFile : Bytes → Option Bytes

structure ImageFile where
  name : Bytes
  bitmap : Bool
  size : UInt32
  colorType : UInt32
  colorTypeHeader : UInt32
  maskType : UInt32
  animType : UInt32
  deriving DecidableEq, Repr

/-- The table `colors`. -/
def colors : List (Bytes × UInt32) :=
  [(chars "c32", 0x0b), (chars "c24", 0x08), (chars "c16", 0x07), (chars "c12", 0x0a), (chars "c8", 0x06),
    (chars "c4", 0x05), (chars "8", 0x04), (chars "4", 0x03), (chars "2", 0x02), (chars "1", 0x01)]

/-- The global variables, and the place of `strtok`. -/
structure Globals where
  outname : Option Bytes
  headername : Option Bytes
  colorType : UInt32
  colorTypeHeader : UInt32
  maskType : UInt32
  animType : UInt32
  extract : Bool
  images : List ImageFile
  strtok : Bytes

def Globals.start : Globals := ⟨none, none, 0, 0, 0, 0, false, [], []⟩

def fixDirSep (str : Bytes) : Bytes := str.map fun c => if c = 92 then 47 else c

/-- `memcmp(header, "BM", 2)` on a file of at least two bytes. -/
def isBitmap (content : Bytes) : Bool := content.take 2 = chars "BM"

/-- The image that `handleFileArgument` adds for a file. -/
def checkedImage (g : Globals) (name content : Bytes) : ImageFile :=
  ⟨name, isBitmap content, UInt32.ofNat content.length, g.colorType, g.colorTypeHeader, g.maskType, g.animType⟩

def handleFileArgument (env : Env) (arg : Bytes) (g : Globals) : Outcome Globals :=
  if g.outname = none then .ok { g with outname := some (fixDirSep arg) }
  else
    match env.readFile (fixDirSep arg) with
    | none => .error (.exits 1)
    | some content =>
      .ok { g with
        images := g.images ++ [checkedImage g (fixDirSep arg) content]
        colorType := 0
        animType := 0 }

/-- The mask behind the comma of a colour type. -/
def maskOption (param : Bytes) : UInt32 :=
  match strchr 44 param with
  | none => 0
  | some mask =>
    if mask.tail = chars "1" then 1
    else if mask.tail = chars "8" then 4
    else 0

/-- The loop over `colors`. -/
def colorOption (param : Bytes) (g : Globals) : Globals :=
  match colors.find? fun type => type.1.isPrefixOf param with
  | none => g
  | some type => { g with colorType := type.2, colorTypeHeader := type.2, maskType := maskOption param }

/-- The `char` in front of a string; a string ends with NUL. -/
def firstChar (s : Bytes) : UInt8 := s.headD 0

/-- The options `h`, `a` and `u`. -/
def letterOption (param : Bytes) (g : Globals) : Globals :=
  let c := tolower (firstChar param)
  if c = 104 then { g with headername := some (fixDirSep param.tail) }
  else if c = 97 then { g with animType := 1 }
  else if c = 117 then { g with extract := true }
  else g

/-- `strtok(ptr, " \t")`, or `strtok(NULL, " \t")` on what is left. -/
def strtok (saved : Bytes) : Option (Bytes × Bytes) :=
  let isDelimiter (c : UInt8) : Bool := c = 32 ∨ c = 9
  let s := saved.dropWhile isDelimiter
  if s = [] then none
  else some (s.takeWhile fun c => !isDelimiter c, (s.dropWhile fun c => !isDelimiter c).tail)

/-- A `\n` or `\r` at the end is taken off. -/
def dropLineEnd (line : Bytes) : Bytes :=
  if line.getLast? = some 10 ∨ line.getLast? = some 13 then line.dropLast else line

mutual
def processArgument (env : Env) : ℕ → Bytes → Globals → Outcome Globals
  | 0, _, _ => .error .outOfFuel
  | n + 1, arg, g =>
    if firstChar arg = 47 ∨ firstChar arg = 45 then
      -- a file of this name is taken as a file
      if g.outname = none ∨ (env.readFile arg).isSome then handleFileArgument env arg g
      else if tolower (firstChar arg.tail) = 102 then do
        let g ← readParamFile env n arg.tail.tail g
        .ok (colorOption arg.tail g)
      else .ok (colorOption arg.tail (letterOption arg.tail g))
    else handleFileArgument env arg g
def readParamFile (env : Env) : ℕ → Bytes → Globals → Outcome Globals
  | 0, _, _ => .error .outOfFuel
  | n + 1, filename, g =>
    match env.readFile (fixDirSep filename) with
    | none => .ok g
    | some content => paramLines env n (fgetsChunks 1000 content) g
/-- `while (fgets(...))`. -/
def paramLines (env : Env) : ℕ → List Bytes → Globals → Outcome Globals
  | _, [], g => .ok g
  | 0, _ :: _, _ => .error .outOfFuel
  | n + 1, line :: lines, g => do
    let g ← paramTokens env n { g with strtok := dropLineEnd (dropLineEnd (readCString line)) }
    paramLines env n lines g
/-- `while ((token = strtok(...)) != NULL)`. -/
def paramTokens (env : Env) : ℕ → Globals → Outcome Globals
  | 0, _ => .error .outOfFuel
  | n + 1, g =>
    match strtok g.strtok with
    | none => .ok { g with strtok := [] }
    | some (token, rest) => do
      let g ← processArgument env n token { g with strtok := rest }
      paramTokens env n g
end

/-- The loop over `argv`. -/
def processArguments (env : Env) (n : ℕ) : List Bytes → Globals → Outcome Globals
  | [], g => .ok g
  | arg :: args, g => do
    let g ← processArgument env n arg g
    processArguments env n args g

/-! ### Images are as they were checked -/

/-- What is stored about an image agrees with its file. -/
def ImageFile.Checked (env : Env) (image : ImageFile) (content : Bytes) : Prop :=
  env.readFile image.name = some content ∧ image.bitmap = isBitmap content ∧
    image.size = UInt32.ofNat content.length

/-- Every image was checked. -/
def Globals.Checked (env : Env) (g : Globals) : Prop :=
  ∀ image ∈ g.images, ∃ content, image.Checked env content

section
variable {env : Env} {g g' : Globals}

theorem checked_handleFileArgument {arg : Bytes} (hg : g.Checked env)
    (h : handleFileArgument env arg g = .ok g') : g'.Checked env := by
  unfold handleFileArgument at h
  split at h
  · cases h
    exact hg
  · split at h
    · cases h
    · next content hread =>
      cases h
      intro image himage
      rcases List.mem_append.mp himage with himage | himage
      · exact hg image himage
      · rw [List.mem_singleton.mp himage]
        exact ⟨content, hread, rfl, rfl⟩

theorem checked_colorOption (param : Bytes) (hg : g.Checked env) : (colorOption param g).Checked env := by
  unfold colorOption
  split
  · exact hg
  · exact hg

theorem checked_letterOption (param : Bytes) (hg : g.Checked env) : (letterOption param g).Checked env := by
  unfold letterOption
  dsimp only
  split_ifs
  all_goals exact hg

mutual
theorem checked_processArgument : ∀ (n : ℕ) {arg : Bytes} {g g' : Globals}, g.Checked env →
    processArgument env n arg g = .ok g' → g'.Checked env
  | 0, _, _, _, _, h => by
    rw [processArgument] at h
    cases h
  | n + 1, arg, g, g', hg, h => by
    rw [processArgument] at h
    split at h
    · split at h
      · exact checked_handleFileArgument hg h
      · split at h
        · obtain ⟨g₁, h₁, h⟩ := bind_eq_ok.mp h
          cases h
          exact checked_colorOption _ (checked_readParamFile n hg h₁)
        · cases h
          exact checked_colorOption _ (checked_letterOption _ hg)
    · exact checked_handleFileArgument hg h
theorem checked_readParamFile : ∀ (n : ℕ) {filename : Bytes} {g g' : Globals}, g.Checked env →
    readParamFile env n filename g = .ok g' → g'.Checked env
  | 0, _, _, _, _, h => by
    rw [readParamFile] at h
    cases h
  | n + 1, filename, g, g', hg, h => by
    rw [readParamFile] at h
    split at h
    · cases h
      exact hg
    · exact checked_paramLines n _ hg h
theorem checked_paramLines : ∀ (n : ℕ) (lines : List Bytes) {g g' : Globals}, g.Checked env →
    paramLines env n lines g = .ok g' → g'.Checked env
  | 0, [], g, g', hg, h => by
    rw [paramLines] at h
    cases h
    exact hg
  | n + 1, [], g, g', hg, h => by
    rw [paramLines] at h
    cases h
    exact hg
  | 0, _ :: _, _, _, _, h => by
    rw [paramLines] at h
    cases h
  | n + 1, line :: lines, g, g', hg, h => by
    rw [paramLines] at h
    obtain ⟨g₁, h₁, h⟩ := bind_eq_ok.mp h
    refine checked_paramLines n lines (checked_paramTokens n ?_ h₁) h
    exact hg
theorem checked_paramTokens : ∀ (n : ℕ) {g g' : Globals}, g.Checked env →
    paramTokens env n g = .ok g' → g'.Checked env
  | 0, _, _, _, h => by
    rw [paramTokens] at h
    cases h
  | n + 1, g, g', hg, h => by
    rw [paramTokens] at h
    split at h
    · cases h
      exact hg
    · obtain ⟨g₁, h₁, h⟩ := bind_eq_ok.mp h
      refine checked_paramTokens n (checked_processArgument n ?_ h₁) h
      exact hg
end

/-- **Checked images.**  Whatever the arguments and the files they name, every image of the list was opened and looked
at. -/
theorem checked_processArguments {n : ℕ} : ∀ (args : List Bytes) {g g' : Globals}, g.Checked env →
    processArguments env n args g = .ok g' → g'.Checked env
  | [], g, g', hg, h => by
    cases h
    exact hg
  | arg :: args, g, g', hg, h => by
    obtain ⟨g₁, h₁, h⟩ := bind_eq_ok.mp h
    exact checked_processArguments args (checked_processArgument n hg h₁) h

end

/-- A picture that a parameter file names, behind its colour type. -/
def paramEnv : Env where
  readFile name := if name = chars "p" then some (chars "-c8 a.svg\n") else if name = chars "a.svg" then some [60] else none

theorem checked_processArguments_sample :
    ∃ g, processArguments paramEnv 9 [chars "o.mif", chars "-fp"] Globals.start = .ok g ∧ g.images.length = 1 ∧
      g.Checked paramEnv :=
  have hstart : Globals.start.Checked paramEnv := fun _ h => absurd h List.not_mem_nil
  ⟨_, rfl, rfl, checked_processArguments (n := 9) [chars "o.mif", chars "-fp"] hstart rfl⟩

end GnuPoc.Mif
