import GnuPoc.E32.Capability

/-!
# GnuPoc.E32.TranOptions — the command line of elftran (`parseOptions`)

The same parser runs over a fresh header and, when an image is edited, a second time over the header of
the image.  `optionsMet` are the options the loop stops at, each with the arguments behind it; what an
option sets is the value of the last one met that sets it.
-/

namespace GnuPoc.E32

open GnuPoc.Lib

/-- How a run ends before it has written a file. -/
inductive Stop
  | returns (status : ℕ)
  | crashes
  deriving DecidableEq

theorem exists_of_any {ε α : Type} {r : Except ε α} {p : α → Bool} (h : r.toOption.any p) :
    ∃ a, r = .ok a ∧ p a := by
  cases r with
  | error e => cases h
  | ok a => exact ⟨a, rfl, h⟩

/-- `!strcmp(s, lit)`. -/
def equals (s : CString) (lit : String) : Bool := s.chars = chars lit

/-- `strtoul(s, NULL, 0)` into 32 bits. -/
def strtoul32 (s : CString) : UInt32 := UInt32.ofNat (strtoul s.chars)

/-- `argv[i + 1]`, which is `NULL` behind the last argument. -/
def nextArg : List CString → Except Stop CString
  | [] => .error .crashes
  | arg :: _ => .ok arg

/-- What `parseOptions` works on. -/
structure TranOptions where
  headers : Headers
  dlldata : Bool
  elfinput : Option CString
  output : Option CString
  dumpFlags : UInt32
  headersModified : Bool

namespace TranOptions

def setHeader (s : TranOptions) (header : E32ImageHeader) : TranOptions :=
  { s with headers := { s.headers with header := header } }

def setHeaderV (s : TranOptions) (headerV : E32ImageHeaderV) : TranOptions :=
  { s with headers := { s.headers with headerV := headerV } }

def setFlags (s : TranOptions) (flags : UInt32) : TranOptions :=
  s.setHeader { s.headers.header with flags := flags }

end TranOptions

/-- The flag a letter of `-dump` sets. -/
def dumpFlag (c : UInt8) : UInt32 :=
  if tolower c = 104 then 1
  else if tolower c = 115 then 2
  else if tolower c = 99 then 4
  else if tolower c = 100 then 8
  else if tolower c = 101 then 16
  else if tolower c = 105 then 32
  else 0

/-- `-codepaging` and `-datapaging`. -/
def setPaging (arg : CString) (paged unpaged : UInt32) (flags : UInt32) : UInt32 :=
  if equals arg "paged" then flags ||| paged
  else if equals arg "unpaged" then flags ||| unpaged
  else if equals arg "default" then flags &&& ~~~(unpaged ||| paged)
  else flags

/-- `header->moduleVersion` for the argument of `-version`. -/
def moduleVersionOf (arg : CString) : UInt32 :=
  let version := scanVersion arg.chars 10 0
  (version.1.toUInt32 <<< 16) ||| version.2.toUInt32

/-- A branch of `parseOptions` that changes a header: the name, how far it moves `i` on, and what it does
with the arguments behind it. -/
structure TranOption where
  name : String
  argCount : ℕ
  run : List CString → TranOptions → Except Stop TranOptions

def withArg (name : String) (f : CString → TranOptions → TranOptions) : TranOption :=
  ⟨name, 1, fun rest s => do return f (← nextArg rest) s⟩

def withoutArg (name : String) (f : TranOptions → TranOptions) : TranOption := ⟨name, 0, fun _ s => .ok (f s)⟩

/-- A flag that is set or cleared. -/
def flagOption (name : String) (f : UInt32 → UInt32) : TranOption :=
  withoutArg name fun s => s.setFlags (f s.headers.header.flags)

def fpuOption : TranOption := ⟨"-fpu", 1, fun rest s => do
  let arg ← nextArg rest
  let flags := s.headers.header.flags &&& ~~~KImageHWFloatMask
  if equals arg "softvfp" then return s.setFlags flags
  else if equals arg "vfpv2" then return s.setFlags (flags ||| KImageHWFloat_VFPv2)
  else .error (.returns 1)⟩

def heapOption : TranOption := ⟨"-heap", 2, fun rest s =>
  match rest with
  | arg1 :: arg2 :: _ => .ok (s.setHeader { s.headers.header with
      heapSizeMin := (strtoul32 arg1).toInt32, heapSizeMax := (strtoul32 arg2).toInt32 })
  | _ => .error (.returns 1)⟩

/-- The argument of `-compressionmethod`; only two of them set a type. -/
def compressionMethod (arg : CString) : Option UInt32 :=
  if equals arg "none" then some 0
  else if equals arg "deflate" then some KUidCompressionDeflate
  else none

def TranOptions.setCompression (s : TranOptions) (type : UInt32) : TranOptions :=
  s.setHeader { s.headers.header with compressionType := type }

def TranOptions.setCaps (s : TranOptions) (caps : Caps) : TranOptions :=
  s.setHeaderV { s.headers.headerV with caps0 := caps.caps0, caps1 := caps.caps1 }

/-- The branches of `parseOptions` that set `*headersModified`, in order. -/
def headerOptions : List TranOption := [
  withArg "-sid" fun arg s => s.setHeaderV { s.headers.headerV with secureId := strtoul32 arg },
  withArg "-uid1" fun arg s => s.setHeader { s.headers.header with uid1 := strtoul32 arg },
  withArg "-uid2" fun arg s => s.setHeader { s.headers.header with uid2 := strtoul32 arg },
  withArg "-uid3" fun arg s => s.setHeader { s.headers.header with uid3 := strtoul32 arg },
  withArg "-vid" fun arg s => s.setHeaderV { s.headers.headerV with vendorId := strtoul32 arg },
  withArg "-capability" fun arg s =>
    s.setCaps (getCapabilities arg ⟨s.headers.headerV.caps0, s.headers.headerV.caps1⟩),
  fpuOption,
  heapOption,
  withArg "-stack" fun arg s => s.setHeader { s.headers.header with stackSize := (strtoul32 arg).toInt32 },
  withoutArg "-nocompress" fun s => s.setCompression 0,
  withoutArg "-compress" fun s => s.setCompression KUidCompressionDeflate,
  flagOption "-nocall" (· ||| KImageNoCallEntryPoint),
  flagOption "-nocallentrypoint" (· ||| KImageNoCallEntryPoint),
  flagOption "-call" (· &&& ~~~KImageNoCallEntryPoint),
  flagOption "-callentrypoint" (· &&& ~~~KImageNoCallEntryPoint),
  withoutArg "-fixed" fun s => s,
  withoutArg "-allowdlldata" fun s => { s with dlldata := true },
  withArg "-version" fun arg s => s.setHeader { s.headers.header with moduleVersion := moduleVersionOf arg },
  withArg "-compressionmethod" fun arg s => ((compressionMethod arg).map s.setCompression).getD s,
  withoutArg "-defaultpaged" fun s => s,
  flagOption "-unpaged" (· ||| KImageUnpaged),
  flagOption "-paged" (· ||| KImagePaged),
  withoutArg "-sym_name_lkup" fun s => s,
  flagOption "-debuggable" (· ||| KImageDebuggable),
  withArg "-codepaging" fun arg s =>
    s.setFlags (setPaging arg KImagePaged KImageUnpaged s.headers.header.flags),
  withArg "-datapaging" fun arg s =>
    s.setFlags (setPaging arg KImageDataPaged KImageDataUnpaged s.headers.header.flags),
  flagOption "-smpsafe" (· ||| KImageSMPSafe)]

def findOption (opt : CString) : Option TranOption := headerOptions.find? fun o => equals opt o.name

/-- How far an argument moves `i` on. -/
def argCount (opt : CString) : ℕ :=
  match findOption opt with
  | some o => o.argCount
  | none => if equals opt "-dump" then 1 else 0

/-- The body of the loop of `parseOptions`. -/
def parseOption (opt : CString) (rest : List CString) (s : TranOptions) : Except Stop TranOptions :=
  match findOption opt with
  | some o => do
    let s ← o.run rest s
    return { s with headersModified := true }
  | none =>
    if equals opt "-dump" then do
      let arg ← nextArg rest
      return { s with dumpFlags := arg.chars.foldl (fun flags c => flags ||| dumpFlag c) s.dumpFlags }
    else if s.elfinput = none then .ok { s with elfinput := some opt }
    else if s.output = none then .ok { s with output := some opt }
    else .ok s

/-- `parseOptions`, with the arguments that are still to be skipped. -/
def parseOptionsFrom : ℕ → List CString → TranOptions → Except Stop TranOptions
  | _, [], s => .ok s
  | skip + 1, _ :: rest, s => parseOptionsFrom skip rest s
  | 0, opt :: rest, s => do
    let s ← parseOption opt rest s
    parseOptionsFrom (argCount opt) rest s

def parseOptions (argv : List CString) (s : TranOptions) : Except Stop TranOptions := parseOptionsFrom 0 argv s

/-! ### What the options set -/

/-- The arguments the loop takes for options or file names, each with those behind it. -/
def optionsMetFrom : ℕ → List CString → List (CString × List CString)
  | _, [] => []
  | skip + 1, _ :: rest => optionsMetFrom skip rest
  | 0, opt :: rest => (opt, rest) :: optionsMetFrom (argCount opt) rest

def optionsMet (argv : List CString) : List (CString × List CString) := optionsMetFrom 0 argv

/-- The value of the last option met that sets one. -/
def lastSetting {α : Type} (setting : CString × List CString → Option α) (argv : List CString) : Option α :=
  ((optionsMet argv).filterMap setting).getLast?

/-- What `-uid1`, `-uid2` or `-uid3` sets. -/
def uidSetting (name : String) : CString × List CString → Option UInt32
  | (opt, rest) => if equals opt name then rest.head?.map strtoul32 else none

/-- What the options about compression set. -/
def compressionSetting : CString × List CString → Option UInt32
  | (opt, rest) =>
    if equals opt "-nocompress" then some 0
    else if equals opt "-compress" then some KUidCompressionDeflate
    else if equals opt "-compressionmethod" then rest.head?.bind compressionMethod
    else none

/-- The fields of the header that the checksum and the compression are about. -/
structure UidFields where
  uid1 : UInt32
  uid2 : UInt32
  uid3 : UInt32
  uidChecksum : UInt32
  compressionType : UInt32
  deriving DecidableEq

def TranOptions.uidFields (s : TranOptions) : UidFields :=
  ⟨s.headers.header.uid1, s.headers.header.uid2, s.headers.header.uid3, s.headers.header.uidChecksum,
    s.headers.header.compressionType⟩

/-- What an option does to them. -/
def UidFields.after (o : CString × List CString) (u : UidFields) : UidFields where
  uid1 := (uidSetting "-uid1" o).getD u.uid1
  uid2 := (uidSetting "-uid2" o).getD u.uid2
  uid3 := (uidSetting "-uid3" o).getD u.uid3
  uidChecksum := u.uidChecksum
  compressionType := (compressionSetting o).getD u.compressionType

/-- The options that set them. -/
def uidOptions : List String := ["-uid1", "-uid2", "-uid3", "-nocompress", "-compress", "-compressionmethod"]

def Unrelated (name : String) : Prop := ∀ l ∈ uidOptions, chars name ≠ chars l

instance decidableUnrelated (name : String) : Decidable (Unrelated name) :=
  inferInstanceAs (Decidable (∀ l ∈ uidOptions, chars name ≠ chars l))

theorem chars_of_equals {s : CString} {lit : String} (h : equals s lit = true) : s.chars = chars lit := by
  simpa [equals] using h

variable {opt : CString} {rest : List CString}

theorem after_of_others (rest : List CString) (u : UidFields)
    (h : ∀ l ∈ uidOptions, equals opt l = false) : u.after (opt, rest) = u := by
  simp only [uidOptions, List.forall_mem_cons] at h
  obtain ⟨h1, h2, h3, h4, h5, h6, -⟩ := h
  simp only [UidFields.after, uidSetting, compressionSetting, h1, h2, h3, h4, h5, h6,
    if_neg Bool.false_ne_true, Option.getD_none]

theorem after_eq_self {lit : String} {rest : List CString} (u : UidFields) (h : equals opt lit = true)
    (hne : Unrelated lit) : u.after (opt, rest) = u := by
  have ho := chars_of_equals h
  exact after_of_others rest u fun l hl => by simpa [equals, ho] using hne l hl

/-- What a branch of `parseOptions` does to the fields. -/
def TranOption.Sets (o : TranOption) : Prop :=
  ∀ opt rest s s', equals opt o.name = true → o.run rest s = .ok s' →
    s'.uidFields = s.uidFields.after (opt, rest)

theorem sets_of_same {o : TranOption} (h : ∀ rest s s', o.run rest s = .ok s' → s'.uidFields = s.uidFields)
    (hne : Unrelated o.name) : o.Sets := by
  intro opt rest s s' ho hs
  rw [h rest s s' hs, after_eq_self _ ho hne]

theorem sets_withArg_same {name : String} {f : CString → TranOptions → TranOptions}
    (h : ∀ arg s, (f arg s).uidFields = s.uidFields)
    (hne : Unrelated name) : (withArg name f).Sets := by
  refine sets_of_same (fun rest s s' hs => ?_) hne
  obtain ⟨arg, -, hs⟩ := bind_eq_ok.mp hs
  cases hs
  exact h arg s

theorem sets_withoutArg_same {name : String} {f : TranOptions → TranOptions}
    (h : ∀ s, (f s).uidFields = s.uidFields)
    (hne : Unrelated name) : (withoutArg name f).Sets := by
  refine sets_of_same (fun rest s s' hs => ?_) hne
  cases hs
  exact h s

theorem nextArg_eq_ok {arg : CString} (h : nextArg rest = .ok arg) : rest.head? = some arg := by
  cases rest with
  | nil => cases h
  | cons a rest =>
    cases h
    rfl

theorem sets_flagOption {name : String} {f : UInt32 → UInt32} (hne : Unrelated name) : (flagOption name f).Sets :=
  sets_withoutArg_same (fun _ => rfl) hne

theorem sets_fpuOption : fpuOption.Sets := by
  refine sets_of_same (fun rest s s' hs => ?_) (by decide)
  obtain ⟨arg, -, hs⟩ := bind_eq_ok.mp hs
  simp only at hs
  split at hs
  · cases hs
    rfl
  · split at hs
    · cases hs
      rfl
    · cases hs

theorem sets_heapOption : heapOption.Sets := by
  refine sets_of_same (fun rest s s' hs => ?_) (by decide)
  unfold heapOption at hs
  simp only at hs
  split at hs
  · cases hs
    rfl
  · cases hs

theorem after_uid {arg : CString} (u : UidFields) (harg : nextArg rest = .ok arg) :
    (equals opt "-uid1" = true → u.after (opt, rest) = { u with uid1 := strtoul32 arg }) ∧
    (equals opt "-uid2" = true → u.after (opt, rest) = { u with uid2 := strtoul32 arg }) ∧
    (equals opt "-uid3" = true → u.after (opt, rest) = { u with uid3 := strtoul32 arg }) := by
  have ha := nextArg_eq_ok harg
  refine ⟨fun ho => ?_, fun ho => ?_, fun ho => ?_⟩
  all_goals
    have ho := chars_of_equals ho
    simp +decide [UidFields.after, uidSetting, compressionSetting, equals, ho, ha]

theorem after_compress (rest : List CString) (u : UidFields) :
    (equals opt "-nocompress" = true → u.after (opt, rest) = { u with compressionType := 0 }) ∧
    (equals opt "-compress" = true → u.after (opt, rest) = { u with compressionType := KUidCompressionDeflate }) ∧
    (equals opt "-compressionmethod" = true → u.after (opt, rest) =
      { u with compressionType := (rest.head?.bind compressionMethod).getD u.compressionType }) := by
  refine ⟨fun ho => ?_, fun ho => ?_, fun ho => ?_⟩
  all_goals
    have ho := chars_of_equals ho
    simp +decide [UidFields.after, uidSetting, compressionSetting, equals, ho]

/-- Each option of the table sets what its name says. -/
theorem headerOptions_sets : ∀ o ∈ headerOptions, o.Sets := by
  unfold headerOptions
  simp only [List.forall_mem_cons]
  refine ⟨sets_withArg_same (fun _ _ => rfl) (by decide), fun opt rest s s' ho hs => ?_,
    fun opt rest s s' ho hs => ?_, fun opt rest s s' ho hs => ?_,
    sets_withArg_same (fun _ _ => rfl) (by decide), sets_withArg_same (fun _ _ => rfl) (by decide),
    sets_fpuOption, sets_heapOption, sets_withArg_same (fun _ _ => rfl) (by decide),
    fun opt rest s s' ho hs => ?_, fun opt rest s s' ho hs => ?_,
    sets_flagOption (by decide), sets_flagOption (by decide), sets_flagOption (by decide),
    sets_flagOption (by decide), sets_withoutArg_same (fun _ => rfl) (by decide),
    sets_withoutArg_same (fun _ => rfl) (by decide), sets_withArg_same (fun _ _ => rfl) (by decide),
    fun opt rest s s' ho hs => ?_, sets_withoutArg_same (fun _ => rfl) (by decide),
    sets_flagOption (by decide), sets_flagOption (by decide),
    sets_withoutArg_same (fun _ => rfl) (by decide), sets_flagOption (by decide),
    sets_withArg_same (fun _ _ => rfl) (by decide), sets_withArg_same (fun _ _ => rfl) (by decide),
    sets_flagOption (by decide), fun o h => absurd h List.not_mem_nil⟩
  · obtain ⟨arg, harg, hs⟩ := bind_eq_ok.mp hs
    cases hs
    rw [(after_uid _ harg).1 ho]
    rfl
  · obtain ⟨arg, harg, hs⟩ := bind_eq_ok.mp hs
    cases hs
    rw [(after_uid _ harg).2.1 ho]
    rfl
  · obtain ⟨arg, harg, hs⟩ := bind_eq_ok.mp hs
    cases hs
    rw [(after_uid _ harg).2.2 ho]
    rfl
  · cases hs
    rw [(after_compress rest _).1 ho]
    rfl
  · cases hs
    rw [(after_compress rest _).2.1 ho]
    rfl
  · obtain ⟨arg, harg, hs⟩ := bind_eq_ok.mp hs
    cases hs
    rw [(after_compress rest _).2.2 ho, nextArg_eq_ok harg, Option.bind_some]
    show ((Option.map s.setCompression (compressionMethod arg)).getD s).uidFields = _
    cases compressionMethod arg with
    | none => rfl
    | some type => rfl

theorem uidOptions_named : ∀ l ∈ uidOptions, l ∈ headerOptions.map TranOption.name := by
  decide

variable {s s' : TranOptions}

theorem parseOption_uidFields
    (h : parseOption opt rest s = .ok s') : s'.uidFields = s.uidFields.after (opt, rest) := by
  unfold parseOption at h
  split at h
  · next o ho =>
    obtain ⟨s₁, hrun, h⟩ := bind_eq_ok.mp h
    cases h
    have hfind : headerOptions.find? (fun o => equals opt o.name) = some o := ho
    have hname := List.find?_some hfind
    exact headerOptions_sets o (List.mem_of_find?_eq_some hfind) opt rest s s₁ hname hrun
  · next ho =>
    have hfind : headerOptions.find? (fun o => equals opt o.name) = none := ho
    rw [after_of_others rest _ fun l hl => ?_]
    · split at h
      · obtain ⟨arg, -, h⟩ := bind_eq_ok.mp h
        cases h
        rfl
      · split at h
        · cases h
          rfl
        · split at h
          · cases h
            rfl
          · cases h
            rfl
    · obtain ⟨o, hmem, rfl⟩ := List.mem_map.mp (uidOptions_named l hl)
      simpa using List.find?_eq_none.mp hfind o hmem

theorem parseOptionsFrom_uidFields {skip : ℕ} {argv : List CString} (h : parseOptionsFrom skip argv s = .ok s') :
    s'.uidFields = (optionsMetFrom skip argv).foldl (fun u o => u.after o) s.uidFields := by
  induction argv generalizing skip s with
  | nil =>
    rw [parseOptionsFrom] at h
    cases h
    rw [optionsMetFrom, List.foldl_nil]
  | cons opt rest ih =>
    cases skip with
    | zero =>
      obtain ⟨s₁, hopt, h⟩ := bind_eq_ok.mp h
      rw [ih h, optionsMetFrom, List.foldl_cons, parseOption_uidFields hopt]
    | succ skip => exact ih h

theorem foldl_getD {α β : Type} (f : β → Option α) (l : List β) (a : α) :
    l.foldl (fun a b => (f b).getD a) a = ((l.filterMap f).getLast?).getD a := by
  induction l generalizing a with
  | nil => rfl
  | cons b l ih =>
    rw [List.foldl_cons, ih]
    cases hb : f b with
    | none => rw [List.filterMap_cons_none hb, Option.getD_none]
    | some c =>
      rw [List.filterMap_cons_some hb, List.getLast?_cons, Option.getD_some, Option.getD_some]

theorem foldl_after (l : List (CString × List CString)) (u : UidFields) :
    l.foldl (fun u o => u.after o) u =
      { uid1 := l.foldl (fun a o => (uidSetting "-uid1" o).getD a) u.uid1
        uid2 := l.foldl (fun a o => (uidSetting "-uid2" o).getD a) u.uid2
        uid3 := l.foldl (fun a o => (uidSetting "-uid3" o).getD a) u.uid3
        uidChecksum := u.uidChecksum
        compressionType := l.foldl (fun a o => (compressionSetting o).getD a) u.compressionType } := by
  induction l generalizing u with
  | nil => rfl
  | cons o l ih => exact ih (u.after o)

/-- **What the options set.**  Each UID and the compression type come from the last option that sets it;
the checksum of the UIDs is left alone. -/
theorem parseOptions_uidFields {argv : List CString} (h : parseOptions argv s = .ok s') :
    s'.uidFields =
      { uid1 := (lastSetting (uidSetting "-uid1") argv).getD s.uidFields.uid1
        uid2 := (lastSetting (uidSetting "-uid2") argv).getD s.uidFields.uid2
        uid3 := (lastSetting (uidSetting "-uid3") argv).getD s.uidFields.uid3
        uidChecksum := s.uidFields.uidChecksum
        compressionType := (lastSetting compressionSetting argv).getD s.uidFields.compressionType } := by
  rw [parseOptionsFrom_uidFields h, foldl_after]
  simp only [foldl_getD, lastSetting, optionsMet]

/-- `*headersModified` is set by the options of the table. -/
theorem parseOption_headersModified (h : parseOption opt rest s = .ok s') :
    s'.headersModified = (s.headersModified || (findOption opt).isSome) := by
  unfold parseOption at h
  split at h
  · next o ho =>
    obtain ⟨s₁, -, h⟩ := bind_eq_ok.mp h
    cases h
    rw [ho, Option.isSome_some, Bool.or_true]
  · next ho =>
    rw [ho, Option.isSome_none, Bool.or_false]
    split at h
    · obtain ⟨arg, -, h⟩ := bind_eq_ok.mp h
      cases h
      rfl
    · split at h
      · cases h
        rfl
      · split at h
        · cases h
          rfl
        · cases h
          rfl

theorem parseOptionsFrom_headersModified {skip : ℕ} {argv : List CString}
    (h : parseOptionsFrom skip argv s = .ok s') :
    s'.headersModified = (s.headersModified || (optionsMetFrom skip argv).any fun o => (findOption o.1).isSome) := by
  induction argv generalizing skip s with
  | nil =>
    rw [parseOptionsFrom] at h
    cases h
    rw [optionsMetFrom, List.any_nil, Bool.or_false]
  | cons opt rest ih =>
    cases skip with
    | zero =>
      obtain ⟨s₁, hopt, h⟩ := bind_eq_ok.mp h
      rw [ih h, optionsMetFrom, List.any_cons, parseOption_headersModified hopt, Bool.or_assoc]
    | succ skip => exact ih h

theorem findOption_of_compressionSetting {o : CString × List CString} {type : UInt32}
    (h : compressionSetting o = some type) : (findOption o.1).isSome := by
  have hname : ∃ l ∈ uidOptions, equals o.1 l = true := by
    unfold compressionSetting at h
    simp only at h
    split at h
    · next h1 => exact ⟨_, by decide, h1⟩
    · split at h
      · next h1 => exact ⟨_, by decide, h1⟩
      · split at h
        · next h1 => exact ⟨_, by decide, h1⟩
        · cases h
  obtain ⟨l, hl, heq⟩ := hname
  obtain ⟨t, ht, rfl⟩ := List.mem_map.mp (uidOptions_named l hl)
  exact List.find?_isSome.mpr ⟨t, ht, heq⟩

theorem compression_of_unmodified {argv : List CString} (h : parseOptions argv s = .ok s')
    (hm : s'.headersModified = false) : lastSetting compressionSetting argv = none := by
  have hany := parseOptionsFrom_headersModified h
  rw [hm, eq_comm, Bool.or_eq_false_iff] at hany
  have hnone : (optionsMet argv).filterMap compressionSetting = [] := by
    rw [List.filterMap_eq_nil_iff]
    intro o ho
    by_contra hne
    obtain ⟨type, htype⟩ := Option.ne_none_iff_exists'.mp hne
    exact List.any_eq_false.mp hany.2 o ho (findOption_of_compressionSetting htype)
  rw [lastSetting, hnone]
  rfl

end GnuPoc.E32
