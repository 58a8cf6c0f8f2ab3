import GnuPoc.Pkg.ParseText
import GnuPoc.Pkg.WriterSteps
import GnuPoc.Sis.Makesis

/-!
# GnuPoc.Sis.NullFields — where the generator comes upon `NULL`

`LoadFile` leaves no file data for an empty source, `AddElement` asks every element for its type, and the
walks over the strings of an option list and over the parts of an embedded package follow their pointers
without a look at them.  What the parts of a package need is asked of those that a run comes to: what follows a
file that cannot be read, or an embedded package that is refused, is not looked at.
-/

namespace GnuPoc.Sis

open GnuPoc.Lib GnuPoc.Pkg

/-! ### Results that are no `NULL` -/

/-- The run does not go through `NULL`. -/
def NotNull {α : Type} (r : Res α) : Prop := r ≠ .error .nullField

section
variable {α β : Type} {r : Res α} {g : α → Res β}

theorem NotNull.ok (a : α) : NotNull (.ok a : Res α) := by
  intro h
  cases h

theorem notNull_bind_iff : NotNull (r >>= g) ↔ NotNull r ∧ ∀ a, r = .ok a → NotNull (g a) := by
  rcases r with e | a
  · constructor
    · intro h
      refine ⟨fun he => h ?_, nofun⟩
      rw [he]
      rfl
    · rintro ⟨h, -⟩ he
      exact h (congrArg Except.error (Except.error.inj he))
  · constructor
    · intro h
      refine ⟨.ok a, fun b hb => ?_⟩
      cases hb
      exact h
    · exact fun h => h.2 a rfl

theorem NotNull.bind (h : NotNull r) (hg : ∀ a, r = .ok a → NotNull (g a)) : NotNull (r >>= g) :=
  notNull_bind_iff.mpr ⟨h, hg⟩

theorem NotNull.ite {c : Prop} [Decidable c] {r' : Res α} (h : c → NotNull r) (h' : ¬ c → NotNull r') :
    NotNull (if c then r else r') := by
  by_cases hc : c
  · rw [if_pos hc]
    exact h hc
  · rw [if_neg hc]
    exact h' hc

/-- `P` of every item up to the first that is not `passed`. -/
def UpTo (passed P : α → Prop) : List α → Prop
  | [] => True
  | a :: as => P a ∧ (passed a → UpTo passed P as)

theorem UpTo.notNull_iff {f : α → Res β} {P : α → Prop} (h : ∀ a, NotNull (f a) ↔ P a) (as : List α) :
    NotNull (as.mapM f) ↔ UpTo (fun a => ∃ b, f a = .ok b) P as := by
  induction as with
  | nil => exact iff_of_true (.ok []) trivial
  | cons a as ih =>
    rw [List.mapM_cons, notNull_bind_iff, h a, UpTo, forall_exists_index]
    refine and_congr_right fun _ => forall_congr' fun b => imp_congr_right fun _ => ?_
    rw [notNull_bind_iff, ih]
    exact and_iff_left fun _ _ => .ok _

end

/-!
### The reader of fields

`SISArray::Load` adds an element for which `LoadOneField` knows no class as `NULL`.
-/

theorem readScalar_notNull (k : ℕ) (cur : Cursor) : NotNull (readScalar k cur) :=
  .ite (fun _ => by intro h; cases h) fun _ => .ite (fun _ => by intro h; cases h) fun _ => .ok _

theorem readUint8_notNull (cur : Cursor) : NotNull (readUint8 cur) :=
  .bind (readScalar_notNull 1 cur) fun _ _ => .ok _

theorem readUint16_notNull (cur : Cursor) : NotNull (readUint16 cur) :=
  .bind (readScalar_notNull 2 cur) fun _ _ => .ok _

theorem readUint32_notNull (cur : Cursor) : NotNull (readUint32 cur) :=
  .bind (readScalar_notNull 4 cur) fun _ _ => .ok _

theorem readUint64_notNull (cur : Cursor) : NotNull (readUint64 cur) :=
  .bind (readUint32_notNull cur) fun _ _ => .bind (readUint32_notNull _) fun _ _ => .ok _

theorem copyMem_notNull (n : ℕ) (cur : Cursor) : NotNull (copyMem n cur) :=
  .ite (fun _ => by intro h; cases h) fun _ => .ok _

theorem readChars_notNull : ∀ (n : ℕ) (cur : Cursor), NotNull (readChars n cur)
  | 0, _ => .ok []
  | n + 1, cur => .bind (readUint16_notNull cur) fun p _ => .bind (readChars_notNull n p.2) fun _ _ => .ok _

theorem loadSimpleField_notNull (k : ℕ) (cur : Cursor) : NotNull (loadSimpleField k cur) :=
  .ite (fun _ => by intro h; cases h) fun _ => .bind (copyMem_notNull k cur) fun _ _ => .ok _

theorem loadCompressed_notNull (cur : Cursor) : NotNull (loadCompressed cur) := by
  refine .bind (readUint32_notNull cur) fun _ _ => .bind (readUint64_notNull _) fun _ _ => ?_
  refine .ite (fun _ => .ite (fun _ => by intro h; cases h) fun _ => ?_) fun _ => ?_
  · exact .bind (copyMem_notNull _ _) fun _ _ => .ok _
  · exact .bind (copyMem_notNull _ _) fun _ _ => .ok _

theorem leaf_load_notNull (c : LeafClass) (cur : Cursor) : NotNull (Leaf.load c cur) := by
  cases c with
  | SISString => exact .bind (readChars_notNull _ cur) fun _ _ => .ok _
  | SISCompressed => exact .bind (loadCompressed_notNull cur) fun _ _ => .ok _
  | SISVersion =>
    exact .bind (readUint32_notNull cur) fun _ _ => .bind (readUint32_notNull _) fun _ _ =>
      .bind (readUint32_notNull _) fun _ _ => .ok _
  | SISDate =>
    exact .bind (readUint16_notNull cur) fun _ _ => .bind (readUint8_notNull _) fun _ _ =>
      .bind (readUint8_notNull _) fun _ _ => .ok _
  | SISTime =>
    exact .bind (readUint8_notNull cur) fun _ _ => .bind (readUint8_notNull _) fun _ _ =>
      .bind (readUint8_notNull _) fun _ _ => .ok _
  | SISProperty => exact .bind (readUint32_notNull cur) fun _ _ => .bind (readUint32_notNull _) fun _ _ => .ok _
  | SISBlob => exact .bind (copyMem_notNull _ cur) fun _ _ => .ok _
  | SISCapabilities =>
    exact .ite (fun _ => by intro h; cases h) fun _ => .bind (copyMem_notNull _ cur) fun _ _ => .ok _
  | SISUid | SISLanguage | SISControllerChecksum | SISDataChecksum | SISDataIndex =>
    exact .bind (loadSimpleField_notNull _ cur) fun _ _ => .ok _

theorem loadLeading_notNull (c : CompoundClass) (cur : Cursor) : NotNull (Compound.loadLeading c cur) := by
  cases c with
  | SISHash => exact .bind (readUint32_notNull cur) fun _ _ => .ok _
  | SISExpression => exact .bind (readUint32_notNull cur) fun _ _ => .bind (readUint32_notNull _) fun _ _ => .ok _
  | plain _ | SISInfo | SISFileDescription => exact .ok _

theorem loadTrailing_notNull (c : Compound) (cur : Cursor) : NotNull (c.loadTrailing cur) := by
  cases c with
  | SISInfo => exact .bind (readUint8_notNull cur) fun _ _ => .bind (readUint8_notNull _) fun _ _ => .ok _
  | SISFileDescription =>
    exact .bind (readUint32_notNull cur) fun _ _ => .bind (readUint32_notNull _) fun _ _ =>
      .bind (readUint64_notNull _) fun _ _ => .bind (readUint64_notNull _) fun _ _ =>
        .bind (readUint32_notNull _) fun _ _ => .ok _
  | plain _ | SISHash _ | SISExpression _ _ => exact .ok _

mutual

/-- Every array in a field that is read has elements of a known type, or none. -/
def ElementsKnown : ℕ → FieldClass → Cursor → Prop
  | 0, _, _ => True
  | _ + 1, .leaf _, _ => True
  | n + 1, .SISArray, cur => ∀ iType next, readUint32 cur = .ok (iType, next) → ArrayKnown n iType next
  | n + 1, .compound c, cur => c.trailingLength ≤ cur.aLength →
    ∀ obj next, Compound.loadLeading c cur = .ok (obj, next) →
      AllKnown n (next.region false (next.aLength - c.trailingLength))

def OneKnown : ℕ → Cursor → Prop
  | 0, _ => True
  | n + 1, cur => cur.aLength ≠ 0 → ∀ type cur', readUint32 cur = .ok (type, cur') →
    ∀ length next, readUint32 cur' = .ok (length, next) →
      ∀ c, newObject type = some c → ElementsKnown n c (next.region false length.toNat)

def AllKnown : ℕ → Cursor → Prop
  | 0, _ => True
  | n + 1, cur => cur.aLength ≠ 0 → OneKnown n cur ∧
    ∀ f next, loadOneField false n cur = .ok (some f, next) → AllKnown n next

def ArrayKnown : ℕ → UInt32 → Cursor → Prop
  | 0, _, _ => True
  | n + 1, iType, cur => cur.aLength ≠ 0 → ∀ length next, readUint32 cur = .ok (length, next) →
    ∃ c, newObject iType = some c ∧ ElementsKnown n c (next.region false length.toNat) ∧
      ∀ f, load false n c (next.region false length.toNat) = .ok f → f.id = iType →
        ArrayKnown n iType (next.advance length.toNat)

end

theorem loadOneField_isSome {n : ℕ} {cur next : Cursor} {field : Option SISField} (hlen : cur.aLength ≠ 0)
    (h : loadOneField false n cur = .ok (field, next)) : ∃ f, field = some f := by
  rcases n with - | n
  · cases h
  · rw [loadOneField, if_neg hlen] at h
    obtain ⟨⟨type, cur'⟩, -, h⟩ := bind_eq_ok.mp h
    obtain ⟨⟨length, cur''⟩, -, h⟩ := bind_eq_ok.mp h
    simp only at h
    split at h
    · cases h
    · obtain ⟨f, -, h⟩ := bind_eq_ok.mp h
      cases h
      exact ⟨f, rfl⟩

mutual

theorem load_notNull_iff : ∀ (n : ℕ) (c : FieldClass) (cur : Cursor),
    NotNull (load false n c cur) ↔ ElementsKnown n c cur
  | 0, _, _ => iff_of_true nofun trivial
  | _ + 1, .leaf c, cur => iff_of_true (.bind (leaf_load_notNull c cur) fun _ _ => .ok _) trivial
  | n + 1, .SISArray, cur => by
    rw [load, notNull_bind_iff, ElementsKnown, and_iff_right (readUint32_notNull cur), Prod.forall]
    refine forall_congr' fun iType => forall_congr' fun next => imp_congr_right fun _ => ?_
    rw [notNull_bind_iff, loadArrayElements_notNull_iff n iType next]
    exact and_iff_left fun _ _ => .ok _
  | n + 1, .compound c, cur => by
    rw [load, ElementsKnown]
    by_cases hlen : cur.aLength < c.trailingLength
    · rw [if_pos hlen]
      exact iff_of_true nofun fun h => absurd h (Nat.not_le_of_lt hlen)
    · rw [if_neg hlen, notNull_bind_iff, and_iff_right (loadLeading_notNull c cur), Prod.forall,
        forall_prop_of_true (Nat.le_of_not_lt hlen)]
      refine forall_congr' fun obj => forall_congr' fun next => imp_congr_right fun _ => ?_
      simp only
      rw [notNull_bind_iff, loadElements_notNull_iff n _]
      exact and_iff_left fun _ _ => .bind (loadTrailing_notNull _ _) fun _ _ => .ok _

theorem loadOneField_notNull_iff : ∀ (n : ℕ) (cur : Cursor), NotNull (loadOneField false n cur) ↔ OneKnown n cur
  | 0, _ => iff_of_true nofun trivial
  | n + 1, cur => by
    rw [loadOneField, OneKnown]
    by_cases hlen : cur.aLength = 0
    · rw [if_pos hlen]
      exact iff_of_true (.ok _) fun h => absurd hlen h
    · rw [if_neg hlen, forall_prop_of_true hlen, notNull_bind_iff, and_iff_right (readUint32_notNull cur), Prod.forall]
      refine forall_congr' fun type => forall_congr' fun cur' => imp_congr_right fun _ => ?_
      rw [notNull_bind_iff, and_iff_right (readUint32_notNull cur'), Prod.forall]
      refine forall_congr' fun length => forall_congr' fun next => imp_congr_right fun _ => ?_
      simp only
      cases newObject type with
      | none => exact iff_of_true nofun nofun
      | some c =>
        simp only [Option.some.injEq, forall_eq']
        rw [notNull_bind_iff, load_notNull_iff n c _]
        exact and_iff_left fun _ _ => .ok _

theorem loadElements_notNull_iff : ∀ (n : ℕ) (cur : Cursor), NotNull (loadElements false n cur) ↔ AllKnown n cur
  | 0, _ => iff_of_true nofun trivial
  | n + 1, cur => by
    rw [loadElements, AllKnown]
    by_cases hlen : cur.aLength = 0
    · rw [if_pos hlen]
      exact iff_of_true (.ok _) fun h => absurd hlen h
    · rw [if_neg hlen, forall_prop_of_true hlen, notNull_bind_iff, loadOneField_notNull_iff n cur]
      refine and_congr_right fun _ => ?_
      constructor
      · intro h f next hone
        exact (loadElements_notNull_iff n next).mp (notNull_bind_iff.mp (h (some f, next) hone)).1
      · rintro h ⟨field, next⟩ hone
        obtain ⟨f, rfl⟩ := loadOneField_isSome hlen hone
        exact .bind ((loadElements_notNull_iff n next).mpr (h f next hone)) fun _ _ => .ok _

theorem loadArrayElements_notNull_iff : ∀ (n : ℕ) (iType : UInt32) (cur : Cursor),
    NotNull (loadArrayElements false n iType cur) ↔ ArrayKnown n iType cur
  | 0, _, _ => iff_of_true nofun trivial
  | n + 1, iType, cur => by
    rw [loadArrayElements, ArrayKnown]
    by_cases hlen : cur.aLength = 0
    · rw [if_pos hlen]
      exact iff_of_true (.ok _) fun h => absurd hlen h
    · rw [if_neg hlen, forall_prop_of_true hlen, notNull_bind_iff, and_iff_right (readUint32_notNull cur), Prod.forall]
      refine forall_congr' fun length => forall_congr' fun next => imp_congr_right fun _ => ?_
      simp only
      cases newObject iType with
      | none => exact iff_of_false (fun h => h rfl) nofun
      | some c =>
        simp only [Option.some.injEq, exists_eq_left', Bool.false_and, Bool.false_eq_true, if_false]
        rw [notNull_bind_iff, load_notNull_iff n c _]
        refine and_congr_right fun _ => forall_congr' fun f => imp_congr_right fun _ => ?_
        by_cases hid : f.id = iType
        · rw [if_neg (not_not.mpr hid), forall_prop_of_true hid, notNull_bind_iff, loadArrayElements_notNull_iff n _ _]
          exact and_iff_left fun _ _ => .ok _
        · rw [if_pos hid]
          exact iff_of_true nofun fun h => absurd h hid

end

theorem headerData_notNull (f : SISField) : NotNull f.headerData := .ite (fun _ => .ok _) fun _ => by intro h; cases h

theorem fieldData_notNull (f : SISField) : NotNull f.fieldData := .ite (fun _ => .ok _) fun _ => by intro h; cases h

theorem child_headerData_notNull (f : Child) : NotNull f.headerData := by
  rcases f with f | content
  · exact headerData_notNull f
  · exact .ite (fun _ => .ok _) fun _ => by intro h; cases h

theorem uncompress_notNull (z : Zlib) (c : SISCompressed) : NotNull (c.Uncompress z) := by
  rw [SISCompressed.Uncompress]
  split
  · exact .ok c
  · split
    · intro h
      cases h
    · exact .ok _

theorem compressBuffer_notNull (z : Zlib) (aAlgorithm : UInt32) (c : SISCompressed) :
    NotNull (c.CompressBuffer z aAlgorithm) := by
  rw [SISCompressed.CompressBuffer]
  refine .ite (fun _ => .ite (fun _ => .ok c) fun _ => ?_) fun _ => ?_
  · dsimp only
    split
    · exact .ok _
    · exact .ok _
  · split
    · exact .bind (uncompress_notNull z c) fun c' _ => .ok _
    · exact .ok _

/-- A `SISCompressed` is made of a field or a file. -/
theorem compressed_new_notNull (z : Zlib) (aField : Child) (aAlgorithm : UInt32) :
    NotNull (SISCompressed.new z aField aAlgorithm) := by
  have hload (c : SISCompressed) : NotNull (c.LoadUncompressed (some aField)) :=
    .bind (child_headerData_notNull aField) fun b _ => .ok _
  refine .bind (hload _) fun c _ => ?_
  rw [SISCompressed.Compress]
  refine .ite (fun _ => .bind (hload c) fun c' _ => ?_) fun _ => ?_
  · exact compressBuffer_notNull z aAlgorithm c'
  · exact compressBuffer_notNull z aAlgorithm c

theorem makeChain_notNull (σ : Signer) (controller : SISField) : NotNull (makeChain σ controller) := by
  rw [makeChain]
  split
  · intro h
    cases h
  · refine .bind (.bind (fieldData_notNull controller) fun buffer _ => ?_) fun signature _ => .ok _
    split
    · intro h
      cases h
    · exact .ok _

/-! ### Embedded packages -/

/-- The memory `LoadSISFile` reads the fields from. -/
def contentsCursor (file : Bytes) : Cursor :=
  let buffer := file.take (file.length % 2 ^ 32)
  ⟨buffer.drop 16, (buffer.length + (2 ^ 32 - 16)) % 2 ^ 32⟩

/-- There is a field to read, and it is read without `NULL`. -/
def FieldKnown (cur : Cursor) : Prop := cur.aLength ≠ 0 ∧ OneKnown (loadFuel cur.mem) cur

/-- The bytes a `SISCompressed` is read from. -/
def SISCompressed.cursor (c : SISCompressed) : Cursor :=
  ⟨c.iUncompressedBuffer.getD [], c.iUncompressedSize.toNat % 2 ^ 32⟩

/-- The file data that are to be compressed again have a content. -/
def HasContent : SISField → Prop
  | .compound _ elements => ∃ c, findElement (LeafClass.id .SISCompressed) elements = some (.leaf (.SISCompressed c)) ∧
      (c.iUncompressedBuffer.isSome ∨ c.iCompressedBuffer.isSome)
  | _ => True

/-- A data unit that is to be compressed again has file data with a content. -/
def UnitSupplied (z : Zlib) (algorithm : UInt32) : SISField → Prop
  | .compound _ elements => algorithm = ECompressNone → ∃ iType fileDataArray,
      findElement (FieldClass.id .SISArray) elements = some (.SISArray iType fileDataArray) ∧
        UpTo (fun f => ∃ f', recompressFileData z f = .ok f') HasContent fileDataArray
  | _ => True

/-- A controller that can be read, and data next to one. -/
def PartsSupplied (z : Zlib) (contents : List SISField) : Prop :=
  ∃ c rest, findRemoveElement (LeafClass.id .SISCompressed) contents = (some (.leaf (.SISCompressed c)), rest) ∧
    ∀ c', c.Uncompress z = .ok c' → FieldKnown c'.cursor ∧
      ∀ f next, loadOneField false (loadFuel c'.cursor.mem) c'.cursor = .ok (some f, next) →
        ∀ controller, f = .compound (.plain .SISController) controller →
          ∃ k data, findElement (PlainClass.id .SISData) rest = some (.compound k data)

/-- What the controller and the data of an embedded package have to have. -/
def UnitsSupplied (env : Env) (flags : UInt16) (embedController data : List SISField) : Prop :=
  (findElement (LeafClass.id .SISDataIndex) embedController).isSome ∧ ∃ iType embedDataUnitArray,
    findElement (FieldClass.id .SISArray) data = some (.SISArray iType embedDataUnitArray) ∧
      UpTo (fun u => ∃ u', Recompress env.zlib (compressionOf flags) u = .ok u')
        (UnitSupplied env.zlib (compressionOf flags))
        (embedDataUnitArray.filter fun u => u.id = PlainClass.id .SISDataUnit)

/-- What `LoadEmbeddedSis` asks for in an embedded package, as far as it comes. -/
structure EmbeddedSupplied (env : Env) (flags : UInt16) (f : PKGLINEFILE) : Prop where
  file : ∀ file, env.readFile f.pszSource = some file → ∀ uidBytes,
    copyMem 4 ⟨(file.take (file.length % 2 ^ 32)).drop 8, 4⟩ = .ok uidBytes → ofLE uidBytes = f.options.toNat →
      FieldKnown (contentsCursor file)
  parts : ∀ contents, LoadSISFile env f.pszSource f.options = .ok contents → PartsSupplied env.zlib contents
  units : ∀ embedController data, loadEmbedded env f = .ok (embedController, data) →
    UnitsSupplied env flags embedController data

section
variable {env : Env} {flags : UInt16} {f : PKGLINEFILE}

theorem orEmbeddedSIS_notNull_iff {α : Type} {r : Res α} : NotNull (orEmbeddedSIS r) ↔ NotNull r := by
  unfold orEmbeddedSIS
  split
  · exact iff_of_true nofun nofun
  · exact Iff.rfl

theorem orEmbeddedSIS_eq_ok {α : Type} {r : Res α} {a : α} : orEmbeddedSIS r = .ok a ↔ r = .ok a := by
  unfold orEmbeddedSIS
  split
  · exact iff_of_false nofun nofun
  · exact Iff.rfl

/-- Reading one field, of which something has to come. -/
theorem oneField_notNull_iff {β : Type} {cur : Cursor} {r : Res (Option SISField × Cursor)}
    {g : Option SISField × Cursor → Res β} {Q : Prop}
    (hr : NotNull r ↔ NotNull (loadOneField false (loadFuel cur.mem) cur))
    (hok : ∀ p, r = .ok p ↔ loadOneField false (loadFuel cur.mem) cur = .ok p)
    (hnull : ∀ next, g (none, next) = .error .nullField)
    (hg : (∀ f next, loadOneField false (loadFuel cur.mem) cur = .ok (some f, next) → NotNull (g (some f, next))) ↔ Q) :
    NotNull (r >>= g) ↔ FieldKnown cur ∧ Q := by
  rw [notNull_bind_iff, hr, loadOneField_notNull_iff, FieldKnown, ← hg]
  constructor
  · rintro ⟨hone, hrest⟩
    refine ⟨⟨fun hzero => ?_, hone⟩, fun f next hread => hrest _ ((hok _).mpr hread)⟩
    exact hrest (none, cur) ((hok _).mpr (if_pos hzero)) (hnull cur)
  · rintro ⟨⟨hlen, hone⟩, hrest⟩
    refine ⟨hone, ?_⟩
    rintro ⟨field, next⟩ hread
    obtain ⟨f, rfl⟩ := loadOneField_isSome hlen ((hok _).mp hread)
    exact hrest f next ((hok _).mp hread)

theorem loadSISFile_notNull_iff : NotNull (LoadSISFile env f.pszSource f.options) ↔
    ∀ file, env.readFile f.pszSource = some file → ∀ uidBytes,
      copyMem 4 ⟨(file.take (file.length % 2 ^ 32)).drop 8, 4⟩ = .ok uidBytes → ofLE uidBytes = f.options.toNat →
        FieldKnown (contentsCursor file) := by
  unfold LoadSISFile
  cases env.readFile f.pszSource with
  | none => exact iff_of_true nofun nofun
  | some file =>
    simp only [Option.some.injEq, forall_eq']
    rw [notNull_bind_iff, and_iff_right (copyMem_notNull _ _)]
    refine forall_congr' fun uidBytes => imp_congr_right fun _ => ?_
    by_cases huid : ofLE uidBytes = f.options.toNat
    · rw [if_neg (not_not.mpr huid), forall_prop_of_true huid]
      refine (@oneField_notNull_iff _ (contentsCursor file) _ _ True orEmbeddedSIS_notNull_iff
        (fun p => orEmbeddedSIS_eq_ok) (fun next => rfl) ⟨fun _ => trivial, fun _ field next _ => ?_⟩).trans
          (and_iff_left trivial)
      simp only
      split
      · next heq => cases heq
      · exact .ok _
      · exact nofun
    · rw [if_pos huid]
      exact iff_of_true nofun fun h => absurd h huid

theorem recompressFileData_notNull_iff (z : Zlib) (field : SISField) :
    NotNull (recompressFileData z field) ↔ HasContent field := by
  cases field with
  | leaf l => exact iff_of_true nofun trivial
  | SISArray iType fs => exact iff_of_true nofun trivial
  | compound c elements =>
    unfold recompressFileData HasContent
    simp only
    split
    · next compressed hfound =>
      rw [hfound, notNull_bind_iff, and_iff_left fun _ _ => NotNull.ok _]
      rw [SISCompressed.Compress]
      simp only [Option.some.injEq, SISField.leaf.injEq, Leaf.SISCompressed.injEq, exists_eq_left']
      by_cases hempty : compressed.iUncompressedBuffer = none ∧ compressed.iCompressedBuffer = none
      · rw [if_pos hempty]
        refine iff_of_false (fun h => h rfl) ?_
        simp [hempty.1, hempty.2]
      · rw [if_neg hempty]
        refine iff_of_true (compressBuffer_notNull z ECompressNone compressed) ?_
        rcases not_and_or.mp hempty with h | h
        · exact .inl (Option.isSome_iff_ne_none.mpr h)
        · exact .inr (Option.isSome_iff_ne_none.mpr h)
    · next hnone =>
      refine iff_of_false (fun h => h rfl) ?_
      rintro ⟨compressed, hfound, -⟩
      exact hnone compressed hfound

theorem recompress_notNull_iff (z : Zlib) (algorithm : UInt32) (dataUnit : SISField) :
    NotNull (Recompress z algorithm dataUnit) ↔ UnitSupplied z algorithm dataUnit := by
  unfold Recompress
  by_cases halg : algorithm = ECompressNone
  swap
  · rw [if_pos halg]
    refine iff_of_true (.ok _) ?_
    cases dataUnit with
    | leaf l => trivial
    | SISArray iType fs => trivial
    | compound c elements => exact fun h => absurd h halg
  rw [if_neg (not_not.mpr halg)]
  cases dataUnit with
  | leaf l => exact iff_of_true nofun trivial
  | SISArray iType fs => exact iff_of_true nofun trivial
  | compound c elements =>
    simp only [UnitSupplied, forall_prop_of_true halg]
    split
    · next iType fs hfound =>
      rw [hfound, notNull_bind_iff, and_iff_left fun _ _ => NotNull.ok _,
        UpTo.notNull_iff (recompressFileData_notNull_iff z)]
      simp only [Option.some.injEq, SISField.SISArray.injEq]
      exact ⟨fun h => ⟨iType, fs, ⟨rfl, rfl⟩, h⟩, fun ⟨_, _, ⟨_, rfl⟩, h⟩ => h⟩
    · next hnone =>
      refine iff_of_false (fun h => h rfl) ?_
      rintro ⟨iType, fs, hfound, -⟩
      exact hnone iType fs hfound

/-- An embedded package is loaded without `NULL` exactly when its parts are there. -/
theorem loadEmbedded_notNull_iff : NotNull (loadEmbedded env f) ↔
    NotNull (LoadSISFile env f.pszSource f.options) ∧
      ∀ contents, LoadSISFile env f.pszSource f.options = .ok contents → PartsSupplied env.zlib contents := by
  unfold loadEmbedded
  rw [notNull_bind_iff]
  refine and_congr_right fun _ => forall_congr' fun contents => imp_congr_right fun _ => ?_
  unfold PartsSupplied
  split
  · next c rest hfound =>
    simp only [hfound, Prod.mk.injEq, Option.some.injEq, SISField.leaf.injEq, Leaf.SISCompressed.injEq]
    rw [notNull_bind_iff, and_iff_right (uncompress_notNull env.zlib c)]
    refine Iff.trans (forall_congr' fun c' => imp_congr_right fun _ => ?_)
      ⟨fun h => ⟨c, rest, ⟨rfl, rfl⟩, h⟩, fun ⟨_, _, ⟨rfl, rfl⟩, h⟩ => h⟩
    rw [SISCompressed.LoadChild, bind_assoc]
    refine @oneField_notNull_iff _ c'.cursor _ _ _ Iff.rfl (fun _ => Iff.rfl) (fun _ => rfl)
      (forall_congr' fun f => forall_congr' fun next => imp_congr_right fun _ => ?_)
    simp only [ok_bind]
    split
    · next heq => cases heq
    · next controller heq =>
      cases heq
      simp only [SISField.compound.injEq, true_and, forall_eq']
      split
      · next k data hdata => exact iff_of_true (.ok _) ⟨k, data, hdata⟩
      · next hnone =>
        refine iff_of_false (fun h => h rfl) ?_
        rintro ⟨k, data, hdata⟩
        exact hnone k data hdata
    · next hother heq =>
      refine iff_of_true nofun fun controller hf => ?_
      exact (hother controller ((Option.some.inj heq).symm.trans hf)).elim
  · next hnone =>
    refine iff_of_false (fun h => h rfl) ?_
    rintro ⟨c, rest, hfound, -⟩
    exact hnone c rest hfound

theorem loadEmbeddedSis_notNull_iff (count : ℕ) :
    NotNull (LoadEmbeddedSis env flags f count) ↔ EmbeddedSupplied env flags f := by
  have hunits : NotNull (LoadEmbeddedSis env flags f count) ↔ NotNull (loadEmbedded env f) ∧
      ∀ embedController data, loadEmbedded env f = .ok (embedController, data) →
        UnitsSupplied env flags embedController data := by
    unfold LoadEmbeddedSis UnitsSupplied
    rw [notNull_bind_iff, Prod.forall]
    refine and_congr_right fun _ => forall_congr' fun embedController => forall_congr' fun data =>
      imp_congr_right fun _ => ?_
    simp only
    split
    · next index iType units hindex hfound =>
      rw [hindex, hfound, notNull_bind_iff, and_iff_left fun _ _ => NotNull.ok _,
        UpTo.notNull_iff (recompress_notNull_iff env.zlib (compressionOf flags))]
      simp only [Option.isSome_some, true_and, Option.some.injEq, SISField.SISArray.injEq]
      exact ⟨fun h => ⟨iType, units, ⟨rfl, rfl⟩, h⟩, fun ⟨_, _, ⟨_, rfl⟩, h⟩ => h⟩
    · next hnone =>
      refine iff_of_false (fun h => h rfl) ?_
      rintro ⟨hindex, iType, units, hfound, -⟩
      obtain ⟨index, hindex⟩ := Option.isSome_iff_exists.mp hindex
      exact hnone index iType units hindex hfound
  rw [hunits, loadEmbedded_notNull_iff, loadSISFile_notNull_iff]
  exact ⟨fun ⟨⟨hfile, hparts⟩, hunits⟩ => ⟨hfile, hparts, hunits⟩, fun h => ⟨⟨h.file, h.parts⟩, h.units⟩⟩

end

/-! ### Files -/

/-- The file can be read, if there is one. -/
def Loads (env : Env) (flags : UInt16) (source : WStr) : Prop :=
  source = [] ∨ ∃ content c, env.readFile source = some content ∧
    SISCompressed.new env.zlib (.RawFile content) (compressionOf flags) = .ok c

/-- A file has file data, unless nobody asks for them. -/
def FileSupplied (ctx : GenContext) (langDep : Bool) (f : PKGLINEFILE) : Prop :=
  if f.type = .EInstFileTypeComponent then EmbeddedSupplied ctx.env ctx.flags f
  else ctx.stub = true ∨ f.pszSource ≠ [] ∨ (langDep = false ∧ f.type = .EInstFileTypeNull)

/-- The file does not end the run. -/
def FileHandled (ctx : GenContext) (f : PKGLINEFILE) : Prop :=
  if f.type = .EInstFileTypeComponent then ∃ r, LoadEmbeddedSis ctx.env ctx.flags f 0 = .ok r
  else Loads ctx.env ctx.flags f.pszSource

section
variable {ctx : GenContext} {f : PKGLINEFILE} {langDep : Bool} {t : Supplies}

theorem loadFile_notNull (env : Env) (flags : UInt16) (filename : WStr) (index : UInt32) :
    NotNull (LoadFile env flags filename index) := by
  refine .ite (fun _ => .ok _) fun _ => ?_
  split
  · intro h
    cases h
  · exact .bind (compressed_new_notNull _ _ _) fun c _ => .ok _

theorem loadFile_fileData {env : Env} {flags : UInt16} {filename : WStr} {index : UInt32} {loaded : LoadedFile}
    (h : LoadFile env flags filename index = .ok loaded) : loaded.fileData.isSome = true ↔ filename ≠ [] := by
  rw [LoadFile] at h
  split at h
  · next hnil =>
    cases h
    simp [hnil]
  · next hne =>
    split at h
    · cases h
    · obtain ⟨c, -, h⟩ := bind_eq_ok.mp h
      cases h
      simp [hne]

theorem getFileDescription_fileData {env : Env} {flags : UInt16} {index : UInt32} {desc : SISField}
    {data : Option SISField} (h : GetFileDescription env flags f index langDep = .ok (desc, data)) :
    data.isSome = true ↔ f.pszSource ≠ [] := by
  obtain ⟨loaded, hloaded, h⟩ := bind_eq_ok.mp h
  cases h
  exact loadFile_fileData hloaded

theorem getFileDescription_empty (env : Env) (flags : UInt16) (index : UInt32) (h : f.pszSource = []) :
    ∃ desc, GetFileDescription env flags f index langDep = .ok (desc, none) := by
  rw [GetFileDescription, h, LoadFile, if_pos rfl]
  exact ⟨_, rfl⟩

theorem loadFile_ok_iff (env : Env) (flags : UInt16) (filename : WStr) (index : UInt32) :
    (∃ loaded, LoadFile env flags filename index = .ok loaded) ↔ Loads env flags filename := by
  unfold LoadFile Loads
  by_cases hnil : filename = []
  · rw [if_pos hnil]
    exact iff_of_true ⟨_, rfl⟩ (.inl hnil)
  rw [if_neg hnil, or_iff_right hnil]
  cases env.readFile filename with
  | none => exact iff_of_false nofun nofun
  | some content =>
    constructor
    · rintro ⟨loaded, h⟩
      obtain ⟨c, hc, -⟩ := bind_eq_ok.mp h
      exact ⟨content, c, rfl, hc⟩
    · rintro ⟨_, c, ⟨⟩, hc⟩
      exact ⟨_, bind_eq_ok.mpr ⟨c, hc, rfl⟩⟩

theorem loadEmbeddedSis_ok_count {env : Env} {flags : UInt16} {count : ℕ} (count' : ℕ)
    (h : ∃ r, LoadEmbeddedSis env flags f count = .ok r) : ∃ r, LoadEmbeddedSis env flags f count' = .ok r := by
  obtain ⟨r, h⟩ := h
  obtain ⟨⟨embedController, data⟩, hload, h⟩ := bind_eq_ok.mp h
  rw [LoadEmbeddedSis, hload, ok_bind]
  dsimp only at h ⊢
  split at h
  · next index iType units hindex hunits =>
    obtain ⟨dataUnits, hdata, -⟩ := bind_eq_ok.mp h
    rw [hdata]
    exact ⟨_, rfl⟩
  · cases h

/-- A file line adds no `NULL` exactly when it has what is asked of it. -/
theorem addFile_notNull_iff : NotNull (addFile ctx f langDep t) ↔ FileSupplied ctx langDep f := by
  unfold FileSupplied
  by_cases hcomponent : f.type = .EInstFileTypeComponent
  · rw [addFile, if_pos hcomponent, if_pos hcomponent, notNull_bind_iff, loadEmbeddedSis_notNull_iff]
    exact and_iff_left fun _ _ => .ok _
  rw [addFile, if_neg hcomponent, if_neg hcomponent]
  constructor
  · intro h
    by_contra hneeds
    rw [not_or, not_or, not_not, not_and_or, Bool.not_eq_false] at hneeds
    obtain ⟨hstub, hsource, hasked⟩ := hneeds
    obtain ⟨desc, hdesc⟩ := @getFileDescription_empty f langDep ctx.env ctx.flags t.index hsource
    rw [hdesc, ok_bind] at h
    dsimp only at h
    rw [if_pos hasked, if_neg hstub] at h
    exact h rfl
  · intro h
    refine .bind (.bind (loadFile_notNull _ _ _ _) fun _ _ => .ok _) fun ⟨desc, data⟩ hdesc => ?_
    refine .ite (fun hasked => .ite (fun _ => .ok _) fun hstub => ?_) fun _ => .ok _
    have hsource : f.pszSource ≠ [] := by
      rcases h with h | h | ⟨hlang, htype⟩
      · exact absurd h hstub
      · exact h
      · rcases hasked with hasked | hasked
        · rw [hlang] at hasked
          exact absurd hasked (by simp)
        · exact absurd htype hasked
    obtain ⟨field, rfl⟩ := Option.isSome_iff_exists.mp ((getFileDescription_fileData hdesc).mpr hsource)
    exact .ok _

theorem addFile_ok_iff (h : FileSupplied ctx langDep f) :
    (∃ r, addFile ctx f langDep t = .ok r) ↔ FileHandled ctx f := by
  unfold FileHandled
  by_cases hcomponent : f.type = .EInstFileTypeComponent
  · rw [addFile, if_pos hcomponent, if_pos hcomponent]
    constructor
    · rintro ⟨r, hr⟩
      obtain ⟨embedded, hload, -⟩ := bind_eq_ok.mp hr
      exact loadEmbeddedSis_ok_count 0 ⟨embedded, hload⟩
    · intro hload
      obtain ⟨embedded, hload⟩ := loadEmbeddedSis_ok_count (1 + t.dataUnits.length) hload
      exact ⟨_, bind_eq_ok.mpr ⟨embedded, hload, rfl⟩⟩
  rw [if_neg hcomponent, ← loadFile_ok_iff ctx.env ctx.flags f.pszSource t.index]
  constructor
  · rintro ⟨r, hr⟩
    rw [addFile, if_neg hcomponent] at hr
    obtain ⟨desc, hdesc, -⟩ := bind_eq_ok.mp hr
    obtain ⟨loaded, hloaded, -⟩ := bind_eq_ok.mp hdesc
    exact ⟨loaded, hloaded⟩
  · rintro ⟨loaded, hloaded⟩
    have hnull : NotNull (addFile ctx f langDep t) := addFile_notNull_iff.mpr h
    rw [addFile, if_neg hcomponent, GetFileDescription, hloaded] at hnull ⊢
    simp only [ok_bind] at hnull ⊢
    split
    · next hasked =>
      rw [if_pos hasked] at hnull
      split
      · exact ⟨_, rfl⟩
      · next hstub =>
        rw [if_neg hstub] at hnull
        cases hdata : loaded.fileData with
        | none =>
          rw [hdata] at hnull
          exact absurd rfl hnull
        | some fileData => exact ⟨_, rfl⟩
    · exact ⟨_, rfl⟩

end

/-! ### Option lists -/

theorem optionFields_null_iff (numLanguages n : ℕ) (base : List WStr) :
    optionFields numLanguages n base = .error .nullField ↔ base.length < n * numLanguages := by
  induction n generalizing base with
  | zero => simp [optionFields]
  | succ n ih =>
    rw [optionFields, Nat.succ_mul]
    by_cases hlen : base.length < numLanguages
    · rw [if_pos hlen]
      exact iff_of_true rfl (by omega)
    · rw [if_neg hlen]
      have hdrop := ih (base.drop numLanguages)
      rw [List.length_drop] at hdrop
      dsimp only
      constructor
      · intro h
        rcases hrest : optionFields numLanguages n (base.drop numLanguages) with e | options
        · rw [hrest] at h hdrop
          have := hdrop.mp h
          omega
        · rw [hrest] at h
          cases h
      · intro h
        rw [hdrop.mpr (by omega)]
        rfl

theorem optionFields_error {numLanguages n : ℕ} {base : List WStr} {e : Stop}
    (h : optionFields numLanguages n base = .error e) : e = .nullField := by
  induction n generalizing base with
  | zero => cases h
  | succ n ih =>
    rw [optionFields] at h
    split at h
    · exact (Except.error.inj h).symm
    · rcases hrest : optionFields numLanguages n (base.drop numLanguages) with e' | options
      · rw [hrest] at h
        exact ih (hrest.trans h)
      · rw [hrest] at h
        cases h

/-! ### The open blocks -/

/-- So many branches are open, and in each of them an `ELSEIF` array. -/
structure Nested (depth : ℕ) (s : GenState) : Prop where
  fileDescs : s.fileDescArrays.length = depth
  ifs : s.ifArrays.length = depth
  embedded : s.embeddedArrays.length = depth
  elseIfs : s.elseIfArrays.length = depth
  isSome : ∀ a ∈ (s.elseIfArray :: s.elseIfArrays).take depth, a.isSome = true

section
variable {s s' : GenState} {depth : ℕ}

theorem Nested.addToBlock (h : Nested depth s) (t : Supplies) (block : BlockRef) (field : SISField ⊕ SISField) :
    Nested depth ((s.withSupplies t).addToBlock block field) := by
  rcases field with controller | fileDesc
  · exact ⟨h.fileDescs, h.ifs, h.embedded, h.elseIfs, h.isSome⟩
  · exact ⟨h.fileDescs, h.ifs, h.embedded, h.elseIfs, h.isSome⟩

theorem nested_genStart (index : UInt32) (fileDataArray : List SISField) : Nested 0 (genStart index fileDataArray) :=
  ⟨rfl, rfl, rfl, rfl, by simp⟩

theorem nested_condIf (exp : SISField) (h : Nested depth s) : Nested (depth + 1) (condIf exp s) where
  fileDescs := congrArg (· + 1) h.fileDescs
  ifs := congrArg (· + 1) h.ifs
  embedded := congrArg (· + 1) h.embedded
  elseIfs := congrArg (· + 1) h.elseIfs
  isSome := by
    intro a ha
    change a ∈ (some _ :: s.elseIfArray :: s.elseIfArrays).take (depth + 1) at ha
    rw [List.take_succ_cons, List.mem_cons] at ha
    rcases ha with rfl | ha
    · rfl
    · exact h.isSome a ha

/-- Without an open branch, nothing is popped. -/
theorem Nested.popBlock_zero (h : Nested 0 s) : s.popBlock = .error .outOfBounds := by
  unfold GenState.popBlock
  rw [List.length_eq_zero_iff.mp h.fileDescs]

theorem Nested.popBlock_succ (h : Nested (depth + 1) s) : ∃ s', s.popBlock = .ok s' ∧
    s'.fileDescArrays.length = depth ∧ s'.ifArrays.length = depth ∧ s'.embeddedArrays.length = depth ∧
      s'.elseIfArray = s.elseIfArray ∧ s'.elseIfArrays = s.elseIfArrays := by
  obtain ⟨f, fs, hf⟩ := List.exists_of_length_succ _ h.fileDescs
  obtain ⟨i, is, hi⟩ := List.exists_of_length_succ _ h.ifs
  obtain ⟨e, es, he⟩ := List.exists_of_length_succ _ h.embedded
  have hlen := h.fileDescs
  have hlen' := h.ifs
  have hlen'' := h.embedded
  rw [hf] at hlen
  rw [hi] at hlen'
  rw [he] at hlen''
  unfold GenState.popBlock
  rw [hf, hi, he]
  exact ⟨_, rfl, Nat.succ.inj hlen, Nat.succ.inj hlen', Nat.succ.inj hlen'', rfl, rfl⟩

theorem condElseIf_nested (exp : SISField) (h : Nested (depth + 1) s) :
    ∃ s', condElseIf exp s = .ok s' ∧ Nested (depth + 1) s' := by
  obtain ⟨s₁, hpop, hf, hi, he, helse, helses⟩ := h.popBlock_succ
  obtain ⟨elseIfArray, harray⟩ := Option.isSome_iff_exists.mp (h.isSome s.elseIfArray (by simp))
  rw [condElseIf, hpop, ok_bind]
  dsimp only [GenState.pushBlock, GenState.newBlock, GenState.enterBlock]
  rw [helse, harray]
  refine ⟨_, rfl, congrArg (· + 1) hf, congrArg (· + 1) hi, congrArg (· + 1) he, ?_, ?_⟩
  · change s₁.elseIfArrays.length = depth + 1
    rw [helses]
    exact h.elseIfs
  · change ∀ a ∈ (some elseIfArray :: s₁.elseIfArrays).take (depth + 1), a.isSome = true
    rw [helses, ← harray]
    exact h.isSome

theorem condEndIf_nested (h : Nested (depth + 1) s) : ∃ s', condEndIf s = .ok s' ∧ Nested depth s' := by
  obtain ⟨s₁, hpop, hf, hi, he, helse, helses⟩ := h.popBlock_succ
  obtain ⟨a, as, harrays⟩ := List.exists_of_length_succ _ h.elseIfs
  have hlen := h.elseIfs
  have hsome := h.isSome
  rw [harrays] at hlen hsome
  rw [condEndIf, hpop, ok_bind, helses, harrays]
  refine ⟨_, rfl, hf, hi, he, Nat.succ.inj hlen, fun b hb => hsome b ?_⟩
  rw [List.take_succ_cons]
  exact List.mem_cons_of_mem _ hb

end

/-! ### Lines -/

/-- The lines that a run comes to have what they need: with so many lines for other languages still to come, and so
many branches open. -/
def LinesSupplied (ctx : GenContext) : ℕ → ℕ → List PKGLINENODE → Prop
  | _, _, [] => True
  | 0, depth, .file f :: nodes => FileSupplied ctx false f ∧ (FileHandled ctx f → LinesSupplied ctx 0 depth nodes)
  | 0, depth, .languageFile f :: nodes =>
    FileSupplied ctx true f ∧ (FileHandled ctx f → LinesSupplied ctx (ctx.langCodes.length - 1) depth nodes)
  | 0, depth, .option o :: nodes =>
    o.dwNumOptions * ctx.langCodes.length ≤ o.pLangStringBase.length ∧ LinesSupplied ctx 0 depth nodes
  | 0, depth, .condIf _ :: nodes => LinesSupplied ctx 0 (depth + 1) nodes
  -- without an open branch, the run ends
  | 0, 0, _ :: _ => True
  | 0, depth + 1, .condElseIf _ :: nodes => LinesSupplied ctx 0 (depth + 1) nodes
  | 0, depth + 1, .condElse :: nodes => LinesSupplied ctx 0 (depth + 1) nodes
  | 0, depth + 1, .condEndIf :: nodes => LinesSupplied ctx 0 depth nodes
  | pending + 1, depth, .file f :: nodes | pending + 1, depth, .languageFile f :: nodes =>
    FileSupplied ctx true f ∧ (FileHandled ctx f → LinesSupplied ctx pending depth nodes)
  | _ + 1, _, _ :: _ => True

section
variable {ctx : GenContext} {s : GenState} {depth : ℕ}

/-- One file, and what is done with it. -/
theorem addFile_bind_notNull_iff {β : Type} {f : PKGLINEFILE} {langDep : Bool} {t : Supplies}
    {g : (SISField ⊕ SISField) × Supplies → Res β} {Q : Prop} (hg : ∀ r, NotNull (g r) ↔ Q) :
    NotNull (addFile ctx f langDep t >>= g) ↔ FileSupplied ctx langDep f ∧ (FileHandled ctx f → Q) := by
  rw [notNull_bind_iff, addFile_notNull_iff]
  refine and_congr_right fun hsupplied => ?_
  rw [← @addFile_ok_iff ctx f langDep t hsupplied, forall_exists_index]
  exact forall_congr' fun r => imp_congr_right fun _ => hg r

/-- The blocks for the languages come down to the lines behind them. -/
theorem languageElseIfs_notNull_iff {β : Type} {elseIfArray : ℕ} {langCodes : List UInt32} {nodes : List PKGLINENODE}
    {g : List PKGLINENODE × GenState → Res β}
    (hg : ∀ rest s', rest.length ≤ nodes.length → Nested depth s' →
      (NotNull (g (rest, s')) ↔ LinesSupplied ctx 0 depth rest))
    (hs : Nested depth s) : NotNull (languageElseIfs ctx elseIfArray langCodes nodes s >>= g) ↔
      LinesSupplied ctx langCodes.length depth nodes := by
  induction langCodes generalizing nodes s with
  | nil => exact hg nodes s le_rfl hs
  | cons langCode langCodes ih =>
    rcases nodes with - | ⟨node, nodes⟩
    · exact iff_of_true nofun trivial
    rw [languageElseIfs, List.length_cons]
    have hfile : ∀ f, NotNull ((addFile ctx f true s.newBlock.2.supplies >>= fun r =>
        languageElseIfs ctx elseIfArray langCodes nodes
          (((s.newBlock.2.withSupplies r.2).addToBlock s.newBlock.1 r.1).addElseIf elseIfArray
            ⟨languageExpression langCode, s.newBlock.1⟩)) >>= g) ↔
        FileSupplied ctx true f ∧ (FileHandled ctx f → LinesSupplied ctx langCodes.length depth nodes) := by
      intro f
      rw [bind_assoc]
      refine addFile_bind_notNull_iff fun r => ih (fun rest s' hrest => hg rest s' (Nat.le_succ_of_le hrest)) ?_
      have hblock : Nested depth s.newBlock.2 := ⟨hs.fileDescs, hs.ifs, hs.embedded, hs.elseIfs, hs.isSome⟩
      have hadded := hblock.addToBlock r.2 s.newBlock.1 r.1
      exact ⟨hadded.fileDescs, hadded.ifs, hadded.embedded, hadded.elseIfs, hadded.isSome⟩
    cases node with
    | file f => exact hfile f
    | languageFile f => exact hfile f
    | option o => exact iff_of_true nofun trivial
    | condIf cond => exact iff_of_true nofun trivial
    | condElseIf cond => exact iff_of_true nofun trivial
    | condElse => exact iff_of_true nofun trivial
    | condEndIf => exact iff_of_true nofun trivial

/-- The loop over the lines meets `NULL` exactly where a line it comes to lacks something.  Without a language there are
no lines that depend on one. -/
theorem genLoop_notNull_iff {nodes : List PKGLINENODE} {n : ℕ} (hn : nodes.length ≤ n)
    (hlang : ctx.langCodes = [] → ∀ f, .languageFile f ∉ nodes) (hs : Nested depth s) :
    NotNull (genLoop ctx n nodes s) ↔ LinesSupplied ctx 0 depth nodes := by
  induction n generalizing nodes s depth with
  | zero =>
    rw [List.length_eq_zero_iff.mp (Nat.le_zero.mp hn), genLoop]
    exact iff_of_true (.ok s) trivial
  | succ n ih =>
    rcases nodes with - | ⟨node, nodes⟩
    · exact iff_of_true (.ok s) trivial
    have hrest : nodes.length ≤ n := Nat.le_of_succ_le_succ hn
    have hlangs (hnil : ctx.langCodes = []) (f : PKGLINEFILE) : .languageFile f ∉ nodes :=
      fun hmem => hlang hnil f (List.mem_cons_of_mem _ hmem)
    rw [genLoop]
    cases node with
    | file f =>
      rw [genLine, bind_assoc]
      exact addFile_bind_notNull_iff fun r => ih hrest hlangs (hs.addToBlock r.2 s.currentBlock r.1)
    | languageFile f =>
      rw [genLine, languageFile]
      rcases hcodes : ctx.langCodes with - | ⟨langCode, langCodes⟩
      · exact absurd List.mem_cons_self (hlang hcodes f)
      have hblock : Nested depth s.newElseIfs.2.newBlock.2 :=
        ⟨hs.fileDescs, hs.ifs, hs.embedded, hs.elseIfs, hs.isSome⟩
      rw [LinesSupplied, hcodes, List.length_cons, Nat.add_sub_cancel]
      simp only [bind_assoc, ok_bind]
      refine addFile_bind_notNull_iff fun r => ?_
      refine languageElseIfs_notNull_iff (fun rest s' hle hs' => ?_) (hblock.addToBlock r.2 _ r.1)
      refine ih (hle.trans hrest) (fun hnil => ?_) ⟨hs'.fileDescs, hs'.ifs, hs'.embedded, hs'.elseIfs, hs'.isSome⟩
      exact absurd (hcodes.symm.trans hnil) (List.cons_ne_nil _ _)
    | option o =>
      rw [genLine, bind_assoc, notNull_bind_iff, LinesSupplied, NotNull, ne_eq, optionFields_null_iff, not_lt]
      refine and_congr_right fun hstrings => ?_
      rcases hoptions : optionFields ctx.langCodes.length o.dwNumOptions o.pLangStringBase with e | options
      · rw [optionFields_error hoptions, optionFields_null_iff] at hoptions
        exact absurd hoptions (not_lt.mpr hstrings)
      have hs' : Nested depth { s with optionsArray := s.optionsArray ++ options } :=
        ⟨hs.fileDescs, hs.ifs, hs.embedded, hs.elseIfs, hs.isSome⟩
      constructor
      · intro h
        exact (ih hrest hlangs hs').mp (h options rfl)
      · rintro h _ ⟨⟩
        exact (ih hrest hlangs hs').mpr h
    | condIf cond => exact ih hrest hlangs (nested_condIf _ hs)
    | condElseIf cond =>
      rcases depth with - | depth
      · rw [genLine, condElseIf, hs.popBlock_zero]
        exact iff_of_true nofun (by simp [LinesSupplied])
      obtain ⟨s', hs', hnested⟩ := condElseIf_nested (GetExpression cond) hs
      rw [genLine, hs']
      exact ih hrest hlangs hnested
    | condElse =>
      rcases depth with - | depth
      · rw [genLine, condElseIf, hs.popBlock_zero]
        exact iff_of_true nofun (by simp [LinesSupplied])
      obtain ⟨s', hs', hnested⟩ := condElseIf_nested elseExpression hs
      rw [genLine, hs']
      exact ih hrest hlangs hnested
    | condEndIf =>
      rcases depth with - | depth
      · rw [genLine, condEndIf, hs.popBlock_zero]
        exact iff_of_true nofun (by simp [LinesSupplied])
      obtain ⟨s', hs', hnested⟩ := condEndIf_nested hs
      rw [genLine, hs']
      exact ih hrest hlangs hnested

end

/-! ### Packages -/

/-- The `SISInfo` has a vendor. -/
def HasVendor (siswriter : CSISWriter) : Prop := siswriter.m_pVendorName ≠ [] ∧ siswriter.m_pLocalizedVendorBase ≠ []

/-- What the generator comes to has what it needs: the logos, if there is a vendor, and the lines, if all logos can be
read. -/
structure WellSupplied (env : Env) (stub : Bool) (siswriter : CSISWriter) : Prop where
  logos : HasVendor siswriter → UpTo (fun logo => Loads env siswriter.m_wFlags logo.pszSource)
    (fun logo => logo.pszSource ≠ []) siswriter.m_pLogoBase.reverse
  lines : HasVendor siswriter → (∀ logo ∈ siswriter.m_pLogoBase, Loads env siswriter.m_wFlags logo.pszSource) →
    LinesSupplied (genContext env siswriter stub) 0 0 siswriter.m_pPkgLineBase.reverse

section
variable {env : Env} {siswriter : CSISWriter} {stub : Bool}

/-- One logo: it is read, and then its file data are asked for. -/
theorem addLogos_cons {flags : UInt16} {logo : LOGO} (logos : List LOGO) (logoField : Option SISField) {index : UInt32}
    (fileDataArray : List SISField) {loaded : LoadedFile} (hload : LoadFile env flags logo.pszSource index = .ok loaded)
    (hsource : logo.pszSource ≠ []) : ∃ logoField' fileDataArray',
      addLogos env flags (logo :: logos) logoField index fileDataArray =
        addLogos env flags logos logoField' (index + 1) fileDataArray' := by
  obtain ⟨fileData, hdata⟩ := Option.isSome_iff_exists.mp ((loadFile_fileData hload).mpr hsource)
  rw [addLogos, GetLogo, hload, ok_bind, ok_bind, hdata]
  exact ⟨_, _, rfl⟩

/-- The logos are asked for a source up to the first that cannot be read. -/
theorem addLogos_notNull_iff {flags : UInt16} {logos : List LOGO} (logoField : Option SISField) (index : UInt32)
    (fileDataArray : List SISField) : NotNull (addLogos env flags logos logoField index fileDataArray) ↔
      UpTo (fun logo => Loads env flags logo.pszSource) (fun logo => logo.pszSource ≠ []) logos := by
  induction logos generalizing logoField index fileDataArray with
  | nil => exact iff_of_true (.ok _) trivial
  | cons logo logos ih =>
    rw [UpTo, ← loadFile_ok_iff env flags logo.pszSource index]
    rcases hload : LoadFile env flags logo.pszSource index with e | loaded
    · have hsource : logo.pszSource ≠ [] := by
        intro hnil
        rw [hnil, LoadFile, if_pos rfl] at hload
        cases hload
      refine iff_of_true ?_ ⟨hsource, nofun⟩
      have hnull := loadFile_notNull env flags logo.pszSource index
      rw [hload] at hnull
      rw [addLogos, GetLogo, hload]
      exact fun h => hnull (congrArg Except.error (Except.error.inj h))
    · by_cases hsource : logo.pszSource = []
      · refine iff_of_false (fun h => ?_) fun h => h.1 hsource
        have hdata : loaded.fileData = none := by
          rw [← Option.not_isSome_iff_eq_none, loadFile_fileData hload]
          exact not_not.mpr hsource
        rw [addLogos, GetLogo, hload, ok_bind, ok_bind, hdata] at h
        exact h rfl
      · obtain ⟨logoField', fileDataArray', hcons⟩ := addLogos_cons logos logoField fileDataArray hload hsource
        rw [hcons, ih]
        exact ⟨fun h => ⟨hsource, fun _ => h⟩, fun h => h.2 ⟨loaded, rfl⟩⟩

theorem addLogos_ok_iff {flags : UInt16} {logos : List LOGO} (logoField : Option SISField) (index : UInt32)
    (fileDataArray : List SISField)
    (h : UpTo (fun logo => Loads env flags logo.pszSource) (fun logo => logo.pszSource ≠ []) logos) :
    (∃ r, addLogos env flags logos logoField index fileDataArray = .ok r) ↔
      ∀ logo ∈ logos, Loads env flags logo.pszSource := by
  induction logos generalizing logoField index fileDataArray with
  | nil => exact iff_of_true ⟨_, rfl⟩ (by simp)
  | cons logo logos ih =>
    obtain ⟨hsource, hrest⟩ := h
    rw [List.forall_mem_cons, ← loadFile_ok_iff env flags logo.pszSource index]
    rcases hload : LoadFile env flags logo.pszSource index with e | loaded
    · refine iff_of_false ?_ fun h => ?_
      · rw [addLogos, GetLogo, hload]
        exact nofun
      · obtain ⟨_, ⟨⟩⟩ := h.1
    · obtain ⟨logoField', fileDataArray', hcons⟩ := addLogos_cons logos logoField fileDataArray hload hsource
      rw [hcons, ih _ _ _ (hrest ((loadFile_ok_iff env flags logo.pszSource index).mp ⟨loaded, hload⟩))]
      exact (and_iff_right ⟨loaded, rfl⟩).symm

theorem createSISInfo_notNull : NotNull (CreateSISInfo env siswriter stub) := by
  rw [CreateSISInfo]
  split
  · intro h
    cases h
  · exact .ite (fun _ => by intro h; cases h) fun _ => .ok _

theorem createSISInfo_ok_iff : (∃ info, CreateSISInfo env siswriter stub = .ok info) ↔ HasVendor siswriter := by
  unfold CreateSISInfo HasVendor
  split
  · next hnil => exact iff_of_false nofun fun h => h.1 hnil
  · next vendorName names hcons =>
    rw [hcons, and_iff_right (List.cons_ne_nil _ _)]
    by_cases hbase : siswriter.m_pLocalizedVendorBase = []
    · rw [if_pos hbase]
      exact iff_of_false nofun fun h => h hbase
    · rw [if_neg hbase]
      exact iff_of_true ⟨_, rfl⟩ hbase

/-- What is done with the elements of the controller does not go through `NULL`. -/
theorem generateController_notNull_iff : NotNull (generateController env siswriter stub) ↔
    NotNull (generateElements env siswriter stub) := by
  rw [generateController, notNull_bind_iff]
  refine and_iff_left fun ⟨elements, s⟩ _ => .bind ?_ fun controller _ => .ok _
  exact .ite (fun _ => .bind (makeChain_notNull _ _) fun chain _ => .ok _) fun _ => .ok _

theorem generateSISFile_notNull_iff_elements : NotNull (GenerateSISFile env siswriter stub) ↔
    NotNull (generateElements env siswriter stub) := by
  rw [← generateController_notNull_iff]
  rcases stub with - | -
  · have hcontents : NotNull (generateContents env siswriter) ↔ NotNull (generateController env siswriter false) := by
      rw [generateContents, notNull_bind_iff]
      refine and_iff_left fun ⟨controller, dataUnits⟩ _ => ?_
      refine .bind (compressed_new_notNull _ _ _) fun c _ => .bind (headerData_notNull _) fun content _ => ?_
      exact .bind (headerData_notNull _) fun controllerData _ => .ok _
    rw [← hcontents]
    exact notNull_bind_iff.trans (and_iff_left fun contents _ => .bind (headerData_notNull _) fun data _ => .ok _)
  · exact notNull_bind_iff.trans (and_iff_left fun ⟨controller, dataUnits⟩ _ => headerData_notNull _)

/-- The generator meets `NULL` exactly in packages that lack something it comes to. -/
theorem generateSISFile_notNull_iff
    (hlang : languageCodes siswriter = [] → ∀ f, .languageFile f ∉ siswriter.m_pPkgLineBase) :
    NotNull (GenerateSISFile env siswriter stub) ↔ WellSupplied env stub siswriter := by
  have hlangs (hnil : (genContext env siswriter stub).langCodes = []) (f : PKGLINEFILE) :
      .languageFile f ∉ siswriter.m_pPkgLineBase.reverse := fun hmem => hlang hnil f (List.mem_reverse.mp hmem)
  have hlines (index : UInt32) (fileDataArray : List SISField) :=
    @genLoop_notNull_iff (genContext env siswriter stub) _ 0 _ _ le_rfl hlangs (nested_genStart index fileDataArray)
  have hrest {α : Type} (g : Option SISField × UInt32 × List SISField → GenState → α) :
      NotNull (addLogos env siswriter.m_wFlags siswriter.m_pLogoBase.reverse none 0 [] >>= fun r =>
        genLoop (genContext env siswriter stub) siswriter.m_pPkgLineBase.reverse.length siswriter.m_pPkgLineBase.reverse
          (genStart r.2.1 r.2.2) >>= fun s => .ok (g r s)) ↔
      UpTo (fun logo => Loads env siswriter.m_wFlags logo.pszSource) (fun logo => logo.pszSource ≠ [])
          siswriter.m_pLogoBase.reverse ∧
        ((∀ logo ∈ siswriter.m_pLogoBase, Loads env siswriter.m_wFlags logo.pszSource) →
          LinesSupplied (genContext env siswriter stub) 0 0 siswriter.m_pPkgLineBase.reverse) := by
    rw [notNull_bind_iff, addLogos_notNull_iff]
    refine and_congr_right fun hlogos => ?_
    have hok := addLogos_ok_iff none 0 [] hlogos
    simp only [List.mem_reverse] at hok
    rw [← hok, forall_exists_index]
    refine forall_congr' fun r => imp_congr_right fun _ => ?_
    rw [notNull_bind_iff, and_iff_left fun _ _ => .ok _, hlines]
  rw [generateSISFile_notNull_iff_elements, generateElements, notNull_bind_iff, and_iff_right createSISInfo_notNull]
  constructor
  · intro h
    have hsupplied (hvendor : HasVendor siswriter) :=
      ((@createSISInfo_ok_iff env siswriter stub).mpr hvendor).elim fun info hinfo => (hrest _).mp (h info hinfo)
    exact ⟨fun hvendor => (hsupplied hvendor).1, fun hvendor => (hsupplied hvendor).2⟩
  · intro h info hinfo
    have hvendor := createSISInfo_ok_iff.mp ⟨info, hinfo⟩
    exact (hrest _).mpr ⟨h.logos hvendor, h.lines hvendor⟩

end

end GnuPoc.Sis
