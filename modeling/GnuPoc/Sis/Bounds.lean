import GnuPoc.Sis.RoundTrip
import Mathlib.Data.List.Infix

/-!
# GnuPoc.Sis.Bounds — when `LoadOneField` stays inside its buffer

The loader always comes to an end, but it hands every declared length to the nested `Load` unchecked,
subtracts padded lengths from an unsigned counter, and `SISArray::Load` calls through the `NULL` that
`NewObject` returns for an unknown type.  `scanOneField` follows the length words of a buffer up to the
first field that is refused and says whether all bytes the loader looks at lie inside the fields they
belong to.  The watched run agrees with the scan, and the run of the code agrees with the watched run
as long as that one does not fault.
-/

namespace GnuPoc.Sis

open GnuPoc.Lib

/-! ### Verdicts -/

inductive Verdict
  | accepts
  | refuses
  | faults
  | unfinished
  deriving DecidableEq, Repr

/-- A field came back, or a `SISFieldError` was thrown. -/
def Verdict.Settled (v : Verdict) : Prop := v = accepts ∨ v = refuses

/-- What the caller does next counts only if the callee accepted. -/
def Verdict.andThen : Verdict → Verdict → Verdict
  | accepts, w => w
  | v, _ => v

def verdict {α : Type} : Res α → Verdict
  | .ok _ => .accepts
  | .error (.throws _) => .refuses
  | .error .outOfFuel => .unfinished
  | .error _ => .faults

/-! ### The scan -/

/-- Reading a scalar of `k` bytes, `L` being the counter and `m` the bytes that are there. -/
def scanScalar (k L m : ℕ) : Verdict :=
  if L < k then .refuses else if m < k then .faults else .accepts

def scanScalars : List ℕ → ℕ → ℕ → Verdict
  | [], _, _ => .accepts
  | k :: ks, L, m => (scanScalar k L m).andThen (scanScalars ks (L - k) (m - k))

/-- Reading `n` bytes without a look at the counter. -/
def scanMem (n m : ℕ) : Verdict := if m < n then .faults else .accepts

/-- `Load` of a leaf class that was declared to be `L` bytes long. -/
def LeafClass.scan : LeafClass → ℕ → Bytes → Verdict
  | SISString, L, mem => scanMem (2 * (L / 2)) mem.length
  | SISCompressed, L, mem => (scanScalars [4, 4, 4] L mem.length).andThen
      (if ofLE (mem.take 4) = 0 ∧ L - 12 ≠ ofLE ((mem.drop 4).take 8) then .refuses
        else scanMem (L - 12) (mem.length - 12))
  | SISVersion, L, mem => scanScalars [4, 4, 4] L mem.length
  | SISDate, L, mem => scanScalars [2, 1, 1] L mem.length
  | SISTime, L, mem => scanScalars [1, 1, 1] L mem.length
  | SISUid, L, mem | SISLanguage, L, mem | SISDataIndex, L, mem =>
    if L ≠ 4 then .refuses else scanMem 4 mem.length
  | SISProperty, L, mem => scanScalars [4, 4] L mem.length
  | SISControllerChecksum, L, mem | SISDataChecksum, L, mem =>
    if L ≠ 2 then .refuses else scanMem 2 mem.length
  | SISBlob, L, mem => scanMem L mem.length
  | SISCapabilities, L, mem => if 100 < L then .refuses else scanMem L mem.length

/-- The scalars a class reads before its elements. -/
def CompoundClass.leadingScalars : CompoundClass → List ℕ
  | SISHash => [4]
  | SISExpression => [4, 4]
  | _ => []

/-- The length word at the front of a field without its type word. -/
def lengthWord (mem : Bytes) : ℕ := ofLE (mem.take 4)

def typeWord (mem : Bytes) : UInt32 := UInt32.ofNat (ofLE (mem.take 4))

mutual

/-- `Load` of a class on `L` declared bytes, of which `mem` are there. -/
def scan : ℕ → FieldClass → ℕ → Bytes → Verdict
  | 0, _, _, _ => .unfinished
  | _ + 1, .leaf c, L, mem => c.scan L mem
  | n + 1, .SISArray, L, mem =>
    (scanScalar 4 L mem.length).andThen (scanArrayElements n (typeWord mem) (L - 4) (mem.drop 4))
  | n + 1, .compound c, L, mem =>
    if L < c.trailingLength then .refuses
    else
      let lead := c.leadingScalars.sum
      let inner := L - lead - c.trailingLength
      (scanScalars c.leadingScalars L mem.length).andThen
        ((scanElements n inner ((mem.drop lead).take inner)).andThen
          (scanMem c.trailingLength (mem.length - lead - inner)))
termination_by structural n => n

/-- A field behind its two header words. -/
def scanOneField : ℕ → ℕ → Bytes → Verdict
  | 0, _, _ => .unfinished
  | n + 1, L, mem =>
    if L = 0 then .accepts
    else (scanScalars [4, 4] L mem.length).andThen
      (match newObject (typeWord mem) with
        | none => .refuses
        | some c => scan n c (lengthWord (mem.drop 4)) ((mem.drop 8).take (lengthWord (mem.drop 4))))
termination_by structural n => n

/-- The fields of a compound field: each has to end inside it, padding included. -/
def scanElements : ℕ → ℕ → Bytes → Verdict
  | 0, _, _ => .unfinished
  | n + 1, L, mem =>
    if L = 0 then .accepts
    else (scanOneField n L mem).andThen
      (let len := lengthWord (mem.drop 4)
        if mem.length < 8 + len ∨ L < 8 + paddedLength len then .faults
        else scanElements n (L - 8 - paddedLength len) (mem.drop (8 + paddedLength len)))
termination_by structural n => n

/-- The elements of an array; an array of a type without class must have none. -/
def scanArrayElements : ℕ → UInt32 → ℕ → Bytes → Verdict
  | 0, _, _, _ => .unfinished
  | n + 1, iType, L, mem =>
    if L = 0 then .accepts
    else (scanScalar 4 L mem.length).andThen
      (match newObject iType with
        | none => .faults
        | some c =>
          let len := lengthWord mem
          (scan n c len ((mem.drop 4).take len)).andThen
            (if mem.length < 4 + len ∨ L < 4 + paddedLength len then .faults
              else scanArrayElements n iType (L - 4 - paddedLength len)
                (mem.drop (4 + paddedLength len))))
termination_by structural n => n

end

/-! ### The watched run, the run of the code and the scan -/

/-- `r` has verdict `w`, and where it settles `r'` settles the same way. -/
structure Tracks {α : Type} (R : α → α → Prop) (w : Verdict) (r r' : Res α) : Prop where
  verdict_eq : verdict r = w
  ok : ∀ a, r = .ok a → ∃ a', r' = .ok a' ∧ R a a'
  throws : ∀ e, r = .error (.throws e) → r' = .error (.throws e)

section
variable {α β : Type} {R : α → α → Prop} {S : β → β → Prop}

theorem Tracks.pure {a a' : α} (h : R a a') : Tracks R .accepts (.ok a) (.ok a') := by
  refine ⟨rfl, ?_, nofun⟩
  intro b hb
  cases hb
  exact ⟨a', rfl, h⟩

theorem Tracks.refuse (e : SISFieldError) :
    Tracks R .refuses (.error (.throws e)) (.error (.throws e)) :=
  ⟨rfl, nofun, fun _ h => h⟩

theorem Tracks.fault {s : Stop} (r' : Res α) (hs : verdict (.error s : Res α) = .faults) :
    Tracks R .faults (.error s) r' := by
  refine ⟨hs, nofun, ?_⟩
  rintro e he
  cases he
  cases hs

theorem Tracks.outOfFuel (r' : Res α) : Tracks R .unfinished (.error .outOfFuel) r' :=
  ⟨rfl, nofun, nofun⟩

theorem Tracks.bind {w v : Verdict} {r r' : Res α} {f g : α → Res β} (h : Tracks R w r r')
    (hf : ∀ a a', r = .ok a → R a a' → Tracks S v (f a) (g a')) :
    Tracks S (w.andThen v) (r >>= f) (r' >>= g) := by
  obtain ⟨rfl, hok, hthrow⟩ := h
  cases r with
  | ok a =>
    obtain ⟨a', rfl, hR⟩ := hok a rfl
    exact hf a a' rfl hR
  | error s =>
    cases s with
    | throws e =>
      rw [hthrow e rfl]
      exact .refuse e
    | outOfFuel => exact .outOfFuel _
    | outOfBounds | nullField | aborts | exits => exact .fault _ rfl

end

@[simp] theorem Verdict.andThen_accepts (w : Verdict) : w.andThen .accepts = w := by cases w <;> rfl

@[simp] theorem Verdict.accepts_andThen (w : Verdict) : Verdict.accepts.andThen w = w := rfl

theorem Verdict.andThen_assoc (u v w : Verdict) : (u.andThen v).andThen w = u.andThen (v.andThen w) := by
  cases u <;> rfl

section
variable {β : Type} {S : β → β → Prop} {mem mem' : Bytes} {L m : ℕ} {v : Verdict}

/-! The readers: `mem'` extends the watched memory `mem`, of which `m` bytes are there. -/

theorem readScalar_chain (k : ℕ) {f g : ℕ × Cursor → Res β} (h : mem <+: mem') (hm : mem.length = m)
    (hf : mem.drop k <+: mem'.drop k → (mem.drop k).length = m - k →
      Tracks S v (f (ofLE (mem.take k), ⟨mem.drop k, L - k⟩))
        (g (ofLE (mem.take k), ⟨mem'.drop k, L - k⟩))) :
    Tracks S ((scanScalar k L m).andThen v) (readScalar k ⟨mem, L⟩ >>= f)
      (readScalar k ⟨mem', L⟩ >>= g) := by
  have hdrop := h.drop k
  obtain ⟨x, rfl⟩ := h
  subst hm
  unfold readScalar scanScalar
  split
  · exact .refuse _
  · split
    · exact .fault _ rfl
    · next hk =>
      have hk' : ¬ (mem ++ x).length < k := by
        rw [List.length_append]
        omega
      have htake : (mem ++ x).take k = mem.take k := List.take_append_of_le_length (by omega)
      simp only [hk', if_false, htake]
      exact hf hdrop List.length_drop

theorem readUint8_chain {f g : UInt8 × Cursor → Res β} (h : mem <+: mem') (hm : mem.length = m)
    (hf : ∀ x, mem.drop 1 <+: mem'.drop 1 → (mem.drop 1).length = m - 1 →
      Tracks S v (f (x, ⟨mem.drop 1, L - 1⟩)) (g (x, ⟨mem'.drop 1, L - 1⟩))) :
    Tracks S ((scanScalar 1 L m).andThen v) (readUint8 ⟨mem, L⟩ >>= f) (readUint8 ⟨mem', L⟩ >>= g) := by
  simp only [readUint8, bind_assoc, ok_bind]
  exact readScalar_chain 1 h hm (hf _)

theorem readUint16_chain {f g : UInt16 × Cursor → Res β} (h : mem <+: mem') (hm : mem.length = m)
    (hf : ∀ x, mem.drop 2 <+: mem'.drop 2 → (mem.drop 2).length = m - 2 →
      Tracks S v (f (x, ⟨mem.drop 2, L - 2⟩)) (g (x, ⟨mem'.drop 2, L - 2⟩))) :
    Tracks S ((scanScalar 2 L m).andThen v) (readUint16 ⟨mem, L⟩ >>= f)
      (readUint16 ⟨mem', L⟩ >>= g) := by
  simp only [readUint16, bind_assoc, ok_bind]
  exact readScalar_chain 2 h hm (hf _)

theorem readUint32_chain {f g : UInt32 × Cursor → Res β} (h : mem <+: mem') (hm : mem.length = m)
    (hf : mem.drop 4 <+: mem'.drop 4 → (mem.drop 4).length = m - 4 →
      Tracks S v (f (UInt32.ofNat (ofLE (mem.take 4)), ⟨mem.drop 4, L - 4⟩))
        (g (UInt32.ofNat (ofLE (mem.take 4)), ⟨mem'.drop 4, L - 4⟩))) :
    Tracks S ((scanScalar 4 L m).andThen v) (readUint32 ⟨mem, L⟩ >>= f)
      (readUint32 ⟨mem', L⟩ >>= g) := by
  simp only [readUint32, bind_assoc, ok_bind]
  exact readScalar_chain 4 h hm hf

theorem copyMem_chain (n : ℕ) {f : Bytes → Res β} (h : mem <+: mem') (hm : mem.length = m)
    (hf : ∀ b, Tracks S v (f b) (f b)) :
    Tracks S ((scanMem n m).andThen v) (copyMem n ⟨mem, L⟩ >>= f) (copyMem n ⟨mem', L⟩ >>= f) := by
  obtain ⟨x, rfl⟩ := h
  subst hm
  unfold copyMem scanMem
  split
  · exact .fault _ rfl
  · next hk =>
    have hk' : ¬ (mem ++ x).length < n := by
      rw [List.length_append]
      omega
    simp only [hk', if_false, List.take_append_of_le_length (Nat.not_lt.mp hk)]
    exact hf _

end

/-! ### The classes -/

theorem readChars_tracks {v : Verdict} {β : Type} {S : β → β → Prop} :
    ∀ (n : ℕ) {mem mem' : Bytes} {L : ℕ} {f : List UInt32 → Res β}, mem <+: mem' → 2 * n ≤ L →
      (∀ cs, Tracks S v (f cs) (f cs)) →
      Tracks S ((scanMem (2 * n) mem.length).andThen v) (readChars n ⟨mem, L⟩ >>= f)
        (readChars n ⟨mem', L⟩ >>= f)
  | 0, mem, mem', L, f, h, hL, hf => hf []
  | n + 1, mem, mem', L, f, h, hL, hf => by
    have hchain := readUint16_chain (L := L) (v := (scanMem (2 * n) (mem.drop 2).length).andThen v) (S := S)
      (f := fun p => readChars n p.2 >>= fun cs => f (UInt32.ofNat p.1.toNat :: cs))
      (g := fun p => readChars n p.2 >>= fun cs => f (UInt32.ofNat p.1.toNat :: cs)) h rfl
      fun x hd _ => readChars_tracks n hd (by omega) fun cs => hf _
    have hw : (scanScalar 2 L mem.length).andThen ((scanMem (2 * n) (mem.drop 2).length).andThen v) =
        (scanMem (2 * (n + 1)) mem.length).andThen v := by
      have h2 : ¬ L < 2 := by omega
      simp only [scanScalar, scanMem, h2, if_false, List.length_drop]
      by_cases h1 : mem.length < 2
      · rw [if_pos h1, if_pos (by omega : mem.length < 2 * (n + 1))]
        rfl
      · rw [if_neg h1]
        by_cases h2n : mem.length - 2 < 2 * n
        · rw [if_pos h2n, if_pos (by omega : mem.length < 2 * (n + 1))]
          rfl
        · rw [if_neg h2n, if_neg (by omega : ¬ mem.length < 2 * (n + 1))]
          rfl
    rw [← hw]
    simpa only [readChars, bind_assoc, ok_bind] using hchain

variable {mem mem' : Bytes}

theorem loadSimpleField_tracks {k : ℕ} {L : ℕ} {β : Type} {f : ℕ → β} (h : mem <+: mem') :
    Tracks Eq (if L ≠ k then .refuses else scanMem k mem.length)
      (loadSimpleField k ⟨mem, L⟩ >>= fun v => .ok (f v))
      (loadSimpleField k ⟨mem', L⟩ >>= fun v => .ok (f v)) := by
  unfold loadSimpleField
  by_cases hL : L ≠ k
  · simp only [hL, not_false_eq_true, if_true, ne_eq]
    exact .refuse _
  · simp only [hL, if_false, bind_assoc, ok_bind]
    have hc := copyMem_chain (S := Eq) (v := .accepts) (L := L) (f := fun b => .ok (f (ofLE b))) k h rfl
      fun b => .pure rfl
    rwa [Verdict.andThen_accepts] at hc

theorem loadCompressed_tracks {L : ℕ} (h : mem <+: mem') :
    Tracks Eq (LeafClass.SISCompressed.scan L mem) (Leaf.load .SISCompressed ⟨mem, L⟩)
      (Leaf.load .SISCompressed ⟨mem', L⟩) := by
  have halg : UInt32.ofNat (ofLE (mem.take 4)) = ECompressNone ↔ ofLE (mem.take 4) = 0 := by
    have hlt : ofLE (mem.take 4) < 2 ^ 32 := ofLE_take_lt 4 mem
    have hnat : (UInt32.ofNat (ofLE (mem.take 4))).toNat = ofLE (mem.take 4) := by
      rw [UInt32.toNat_ofNat', Nat.mod_eq_of_lt hlt]
    constructor
    · intro h0
      rw [← hnat, h0]
      rfl
    · intro h0
      rw [h0]
      rfl
  have hsize : (UInt64.ofNat ((UInt32.ofNat (ofLE ((mem.drop 4).take 4))).toNat +
      2 ^ 32 * (UInt32.ofNat (ofLE (((mem.drop 4).drop 4).take 4))).toNat)).toNat =
      ofLE ((mem.drop 4).take 8) := by
    have hlo : ofLE ((mem.drop 4).take 4) < 2 ^ 32 := ofLE_take_lt 4 _
    have hhi : ofLE (((mem.drop 4).drop 4).take 4) < 2 ^ 32 := ofLE_take_lt 4 _
    rw [UInt32.toNat_ofNat', UInt32.toNat_ofNat', Nat.mod_eq_of_lt hlo, Nat.mod_eq_of_lt hhi,
      UInt64.toNat_ofNat', Nat.mod_eq_of_lt (by omega), ofLE_take_add 4 4]
    rfl
  simp only [Leaf.load, loadCompressed, readUint64, bind_assoc, ok_bind, LeafClass.scan, scanScalars,
    Verdict.andThen_assoc]
  refine readUint32_chain h rfl fun h hm => readUint32_chain h hm fun h hm =>
    readUint32_chain h hm fun h hm => ?_
  have hL : L - 4 - 4 - 4 = L - 12 := by omega
  have hm12 : mem.length - 4 - 4 - 4 = mem.length - 12 := by omega
  simp only [halg, hsize, hL]
  rw [hm12] at hm
  have hcopy (g : Bytes → SISCompressed) := copyMem_chain (S := Eq) (v := .accepts) (L := L - 12)
    (f := fun b => .ok (Leaf.SISCompressed (g b))) (L - 12) h hm fun b => .pure rfl
  simp only [Verdict.andThen_accepts] at hcopy
  by_cases h0 : ofLE (mem.take 4) = 0
  · by_cases hne : L - 12 ≠ ofLE ((mem.drop 4).take 8)
    · simp only [h0, hne, if_true, and_self, ne_eq, not_false_eq_true]
      exact .refuse _
    · simp only [h0, hne, if_true, if_false, and_false, bind_assoc, ok_bind]
      exact hcopy _
  · simp only [h0, if_false, false_and, bind_assoc, ok_bind]
    exact hcopy _

theorem Leaf.load_tracks (c : LeafClass) {L : ℕ} (h : mem <+: mem') :
    Tracks Eq (c.scan L mem) (Leaf.load c ⟨mem, L⟩) (Leaf.load c ⟨mem', L⟩) := by
  cases c with
  | SISString =>
    have hc := readChars_tracks (v := .accepts) (S := Eq) (L / 2) (L := L)
      (f := fun cs => .ok (SISString cs)) h (by omega) fun cs => .pure rfl
    rwa [Verdict.andThen_accepts] at hc
  | SISCompressed => exact loadCompressed_tracks h
  | SISVersion =>
    exact readUint32_chain h rfl fun h hm => readUint32_chain h hm fun h hm =>
      readUint32_chain h hm fun _ _ => .pure rfl
  | SISDate =>
    exact readUint16_chain h rfl fun _ h hm => readUint8_chain h hm fun _ h hm =>
      readUint8_chain h hm fun _ _ _ => .pure rfl
  | SISTime =>
    exact readUint8_chain h rfl fun _ h hm => readUint8_chain h hm fun _ h hm =>
      readUint8_chain h hm fun _ _ _ => .pure rfl
  | SISProperty =>
    exact readUint32_chain h rfl fun h hm => readUint32_chain h hm fun _ _ => .pure rfl
  | SISUid | SISLanguage | SISDataIndex | SISControllerChecksum | SISDataChecksum =>
    exact loadSimpleField_tracks h
  | SISBlob =>
    have hc := copyMem_chain (S := Eq) (v := .accepts) (L := L) (f := fun b => .ok (SISBlob b)) L h rfl
      fun b => .pure rfl
    rwa [Verdict.andThen_accepts] at hc
  | SISCapabilities =>
    simp only [load, LeafClass.scan]
    by_cases h100 : 100 < L
    · rw [if_pos h100, if_pos h100, if_pos h100]
      exact .refuse _
    · rw [if_neg h100, if_neg h100, if_neg h100]
      have hc := copyMem_chain (S := Eq) (v := .accepts) (L := L) (f := fun b => .ok (SISCapabilities b)) L
        h rfl fun b => .pure rfl
      rwa [Verdict.andThen_accepts] at hc

theorem Compound.loadLeading_chain (c : CompoundClass) {v : Verdict} {β : Type} {S : β → β → Prop}
    {f g : Compound × Cursor → Res β} {L : ℕ} (h : mem <+: mem')
    (hf : ∀ obj : Compound, obj.cls = c →
      Tracks S v (f (obj, ⟨mem.drop c.leadingScalars.sum, L - c.leadingScalars.sum⟩))
      (g (obj, ⟨mem'.drop c.leadingScalars.sum, L - c.leadingScalars.sum⟩))) :
    Tracks S ((scanScalars c.leadingScalars L mem.length).andThen v) (loadLeading c ⟨mem, L⟩ >>= f)
      (loadLeading c ⟨mem', L⟩ >>= g) := by
  cases c with
  | plain c | SISInfo | SISFileDescription => exact hf _ rfl
  | SISHash =>
    simp only [loadLeading, bind_assoc, ok_bind, CompoundClass.leadingScalars, scanScalars,
      Verdict.andThen_assoc]
    exact readUint32_chain h rfl fun _ _ => hf _ rfl
  | SISExpression =>
    simp only [loadLeading, bind_assoc, ok_bind, CompoundClass.leadingScalars, scanScalars,
      Verdict.andThen_assoc]
    refine readUint32_chain h rfl fun h hm => readUint32_chain h hm fun _ _ => ?_
    have := hf (.SISExpression (UInt32.ofNat (ofLE (mem.take 4)))
      (UInt32.ofNat (ofLE ((mem.drop 4).take 4)))) rfl
    simpa only [CompoundClass.leadingScalars, List.sum_cons, List.sum_nil, List.drop_drop, Nat.sub_sub,
      Nat.add_zero, Verdict.accepts_andThen] using this

theorem scanScalars_sum (ks : List ℕ) (m : ℕ) : scanScalars ks ks.sum m = scanMem ks.sum m := by
  induction ks generalizing m with
  | nil => rfl
  | cons k ks ih =>
    have hk : ¬ k + ks.sum < k := by omega
    rw [List.sum_cons, scanScalars, scanScalar, if_neg hk, Nat.add_sub_cancel_left, ih]
    unfold scanMem
    by_cases hm : m < k
    · have hks : m < k + ks.sum := by omega
      rw [if_pos hm, if_pos hks]
      rfl
    · rw [if_neg hm, Verdict.accepts_andThen]
      by_cases hs : m - k < ks.sum
      · have hks : m < k + ks.sum := by omega
        rw [if_pos hs, if_pos hks]
      · have hks : ¬ m < k + ks.sum := by omega
        rw [if_neg hs, if_neg hks]

theorem Compound.loadTrailing_chain {obj : Compound} {c : CompoundClass} (hobj : obj.cls = c)
    {g : Compound → SISField} (h : mem <+: mem') :
    Tracks Eq (scanMem c.trailingLength mem.length)
      (obj.loadTrailing ⟨mem, c.trailingLength⟩ >>= fun o => .ok (g o))
      (obj.loadTrailing ⟨mem', c.trailingLength⟩ >>= fun o => .ok (g o)) := by
  subst hobj
  cases obj with
  | plain c | SISHash | SISExpression => exact .pure rfl
  | SISInfo t f =>
    have hw : scanMem (SISInfo t f).cls.trailingLength mem.length = scanScalars [1, 1] 2 mem.length :=
      (scanScalars_sum [1, 1] mem.length).symm
    rw [hw]
    simp only [loadTrailing, bind_assoc, ok_bind]
    exact readUint8_chain h rfl fun _ h hm => readUint8_chain h hm fun _ _ _ => .pure rfl
  | SISFileDescription op opt len ulen idx =>
    have hw : scanMem (SISFileDescription op opt len ulen idx).cls.trailingLength mem.length =
        scanScalars [4, 4, 4, 4, 4, 4, 4] 28 mem.length :=
      (scanScalars_sum [4, 4, 4, 4, 4, 4, 4] mem.length).symm
    rw [hw]
    simp only [loadTrailing, readUint64, bind_assoc, ok_bind]
    exact readUint32_chain h rfl fun h hm => readUint32_chain h hm fun h hm =>
      readUint32_chain h hm fun h hm => readUint32_chain h hm fun h hm =>
      readUint32_chain h hm fun h hm => readUint32_chain h hm fun h hm =>
      readUint32_chain h hm fun _ _ => .pure rfl

/-! ### The whole loader -/

theorem lengthWord_lt (mem : Bytes) : lengthWord mem < 2 ^ 32 := ofLE_take_lt 4 mem

theorem toNat_lengthWord (mem : Bytes) : (UInt32.ofNat (ofLE (mem.take 4))).toNat = lengthWord mem := by
  have hlt : ofLE (mem.take 4) < 2 ^ 32 := ofLE_take_lt 4 mem
  rw [UInt32.toNat_ofNat', Nat.mod_eq_of_lt hlt, lengthWord]

theorem loadElements_starved (confine : Bool) {n L : ℕ} (hn : 2 ≤ n) (hL : 4 ≤ L) :
    loadElements confine n ⟨[], L⟩ = .error .outOfBounds := by
  obtain ⟨k, rfl⟩ : ∃ k, n = k + 2 := ⟨n - 2, by omega⟩
  have h0 : L ≠ 0 := by omega
  have h4 : ¬ L < 4 := by omega
  simp [loadElements, loadOneField, readUint32, readScalar, h0, h4]

theorem loadArrayElements_starved (confine : Bool) {n L : ℕ} (iType : UInt32) (hn : 1 ≤ n) (hL : 4 ≤ L) :
    loadArrayElements confine n iType ⟨[], L⟩ = .error .outOfBounds := by
  obtain ⟨k, rfl⟩ : ∃ k, n = k + 1 := ⟨n - 1, by omega⟩
  have h0 : L ≠ 0 := by omega
  have h4 : ¬ L < 4 := by omega
  simp [loadArrayElements, readUint32, readScalar, h0, h4]

theorem fuel_of_load {confine : Bool} {n : ℕ} {c : FieldClass} {cur : Cursor} {f : SISField}
    (h : load confine n c cur = .ok f) : 1 ≤ n := by
  cases n with
  | zero => cases h
  | succ n => omega

theorem fuel_of_loadOneField {confine : Bool} {n : ℕ} {cur next : Cursor} {f : SISField}
    (h : loadOneField confine n cur = .ok (some f, next)) : 2 ≤ n := by
  cases n with
  | zero => cases h
  | succ n =>
    rw [loadOneField] at h
    split at h
    · cases h
    · obtain ⟨⟨type, cur1⟩, -, h⟩ := bind_eq_ok.mp h
      obtain ⟨⟨len, cur2⟩, -, h⟩ := bind_eq_ok.mp h
      simp only at h
      split at h
      · cases h
      · obtain ⟨g, hg, h⟩ := bind_eq_ok.mp h
        have := fuel_of_load hg
        omega

theorem advance_eq {mem : Bytes} {L k : ℕ} (hL : L < 2 ^ 32) (hk : paddedLength k ≤ L) :
    Cursor.advance ⟨mem, L⟩ k = ⟨mem.drop (paddedLength k), L - paddedLength k⟩ := by
  have hp : paddedLength k % 2 ^ 32 = paddedLength k := Nat.mod_eq_of_lt (by omega)
  simp only [Cursor.advance, hp, Cursor.mk.injEq, true_and]
  omega

/-- Where only the padding passes the end, the counter wraps and the memory is used up. -/
theorem advance_wrapped (mem : Bytes) {L k : ℕ} (hL : L + 4 < 2 ^ 32) (hmem : mem.length ≤ L)
    (hk : k ≤ mem.length) (hp : L < paddedLength k) :
    ∃ L', Cursor.advance ⟨mem, L⟩ k = ⟨[], L'⟩ ∧ 4 ≤ L' := by
  have h4 := padding_lt k
  have hpk : paddedLength k = k + padding k := rfl
  have hmod : paddedLength k % 2 ^ 32 = paddedLength k := Nat.mod_eq_of_lt (by omega)
  refine ⟨(L + (2 ^ 32 - paddedLength k)) % 2 ^ 32, ?_, by omega⟩
  rw [Cursor.advance, hmod, Cursor.mk.injEq, List.drop_eq_nil_iff]
  refine ⟨?_, rfl⟩
  show mem.length ≤ paddedLength k
  omega

mutual

/-- The scan tells how the load goes, whatever lies behind the buffer. -/
theorem load_tracks : ∀ (n : ℕ) (c : FieldClass) {mem mem' : Bytes} {L : ℕ}, mem <+: mem' →
    mem.length ≤ L → L < 2 ^ 32 →
    Tracks Eq (scan n c L mem) (load true n c ⟨mem, L⟩) (load false n c ⟨mem', L⟩)
  | 0, _, _, _, _, _, _, _ => by
    rw [scan, load, load]
    exact .outOfFuel _
  | n + 1, .leaf c, mem, mem', L, h, hm, hL => by
    have hb := (Leaf.load_tracks c (L := L) h).bind (S := Eq) (v := .accepts)
      (f := fun l => .ok (SISField.leaf l)) (g := fun l => .ok (SISField.leaf l))
      fun l l' _ hl => .pure (by rw [hl])
    rw [scan, load, load]
    rwa [Verdict.andThen_accepts] at hb
  | n + 1, .SISArray, mem, mem', L, h, hm, hL => by
    rw [scan, load, load]
    refine readUint32_chain h rfl fun hd _ => ?_
    have hb := (loadArrayElements_tracks n (typeWord mem) (L := L - 4) hd
      (by rw [List.length_drop]; omega) (by omega)).bind (S := Eq) (v := .accepts)
      (f := fun fs => .ok (SISField.SISArray (typeWord mem) fs))
      (g := fun fs => .ok (SISField.SISArray (typeWord mem) fs)) fun fs fs' _ hfs => .pure (by rw [hfs])
    rwa [Verdict.andThen_accepts] at hb
  | n + 1, .compound c, mem, mem', L, h, hm, hL => by
    simp only [load, scan]
    by_cases ht : L < c.trailingLength
    · rw [if_pos ht, if_pos ht, if_pos ht]
      exact .refuse _
    · rw [if_neg ht, if_neg ht, if_neg ht]
      refine Compound.loadLeading_chain c h fun obj hobj => ?_
      set lead := c.leadingScalars.sum
      set inner := L - lead - c.trailingLength
      have htail : ((mem.drop lead).drop inner).length = mem.length - lead - inner := by
        rw [List.length_drop, List.length_drop]
      have hin : ((mem.drop lead).take inner).length ≤ inner := List.length_take_le _ _
      have hpre : (mem.drop lead).take inner <+: mem'.drop lead :=
        (List.take_prefix _ _).trans (h.drop lead)
      refine (loadElements_tracks n hpre hin (by omega)).bind fun fs fs' _ hfs => ?_
      subst hfs
      rw [← htail]
      exact Compound.loadTrailing_chain hobj ((h.drop lead).drop inner)

theorem loadOneField_tracks : ∀ (n : ℕ) {mem mem' : Bytes} {L : ℕ}, mem <+: mem' → L ≠ 0 →
    Tracks (fun p p' => (∃ f, p.1 = some f ∧ p'.1 = some f) ∧
        p.2 = Cursor.advance ⟨mem.drop 8, L - 8⟩ (lengthWord (mem.drop 4)) ∧
        p'.2 = Cursor.advance ⟨mem'.drop 8, L - 8⟩ (lengthWord (mem.drop 4)))
      (scanOneField n L mem) (loadOneField true n ⟨mem, L⟩) (loadOneField false n ⟨mem', L⟩)
  | 0, _, _, _, _, _ => by
    rw [scanOneField, loadOneField, loadOneField]
    exact .outOfFuel _
  | n + 1, mem, mem', L, h, h0 => by
    simp only [loadOneField, scanOneField, h0, if_false, scanScalars, Verdict.andThen_assoc,
      Verdict.accepts_andThen]
    refine readUint32_chain h rfl fun hd hm4 => readUint32_chain hd hm4 fun hd' _ => ?_
    rw [List.drop_drop, List.drop_drop] at hd'
    simp only [List.drop_drop, toNat_lengthWord, Nat.sub_sub, Nat.reduceAdd] at hd' ⊢
    cases hc : newObject (typeWord mem) with
    | none =>
      simp only [typeWord] at hc
      simp only [hc]
      exact .refuse _
    | some c =>
      simp only [typeWord] at hc
      simp only [hc]
      set len := lengthWord (mem.drop 4)
      have hpre : (mem.drop 8).take len <+: mem'.drop 8 := (List.take_prefix _ _).trans hd'
      have hb := (load_tracks n c hpre (List.length_take_le len _) (lengthWord_lt _)).bind
        (v := .accepts)
        (S := fun p p' : Option SISField × Cursor => (∃ f, p.1 = some f ∧ p'.1 = some f) ∧
          p.2 = Cursor.advance ⟨mem.drop 8, L - 8⟩ len ∧ p'.2 = Cursor.advance ⟨mem'.drop 8, L - 8⟩ len)
        (f := fun field => .ok (some field, Cursor.advance ⟨mem.drop 8, L - 8⟩ len))
        (g := fun field => .ok (some field, Cursor.advance ⟨mem'.drop 8, L - 8⟩ len))
        fun f f' _ hf => .pure ⟨⟨f, rfl, by rw [hf]⟩, rfl, rfl⟩
      rwa [Verdict.andThen_accepts] at hb

theorem loadElements_tracks : ∀ (n : ℕ) {mem mem' : Bytes} {L : ℕ}, mem <+: mem' → mem.length ≤ L →
    L < 2 ^ 32 →
    Tracks Eq (scanElements n L mem) (loadElements true n ⟨mem, L⟩) (loadElements false n ⟨mem', L⟩)
  | 0, _, _, _, _, _, _ => by
    rw [scanElements, loadElements, loadElements]
    exact .outOfFuel _
  | n + 1, mem, mem', L, h, hm, hL => by
    simp only [loadElements, scanElements]
    by_cases h0 : L = 0
    · rw [if_pos h0, if_pos h0, if_pos h0]
      exact .pure rfl
    · rw [if_neg h0, if_neg h0, if_neg h0]
      refine (loadOneField_tracks n h h0).bind ?_
      rintro ⟨field, next⟩ ⟨field', next'⟩ hok ⟨⟨f, hf, hf'⟩, hnext, hnext'⟩
      simp only at hf hf' hnext hnext'
      subst hf hf' hnext hnext'
      have hn : 2 ≤ n := fuel_of_loadOneField hok
      set len := lengthWord (mem.drop 4) with hlen
      have hover : Cursor.overruns ⟨mem, L⟩ = decide (mem.length < 8 + len) := rfl
      by_cases hpast : mem.length < 8 + len
      · simp only [hover, hpast, decide_true, Bool.and_self, if_true, true_or]
        exact .fault _ rfl
      · have hd8 : (mem.drop 8).length = mem.length - 8 := List.length_drop
        simp only [hover, hpast, decide_false, Bool.and_false, Bool.false_and, Bool.false_eq_true,
          if_false, false_or]
        by_cases hpad : L < 8 + paddedLength len
        · obtain ⟨L', hadv, hL'⟩ := advance_wrapped (mem.drop 8) (L := L - 8) (k := len)
            (by omega) (by omega) (by omega) (by omega)
          rw [if_pos hpad, hadv, loadElements_starved true hn hL']
          exact .fault _ rfl
        · have hple := le_paddedLength len
          rw [if_neg hpad, advance_eq (by omega) (by omega), advance_eq (by omega) (by omega),
            List.drop_drop, List.drop_drop]
          have hrest := (loadElements_tracks n (L := L - 8 - paddedLength len)
            (h.drop (8 + paddedLength len)) (by rw [List.length_drop]; omega) (by omega)).bind
            (S := Eq) (v := .accepts) (f := fun fs => .ok (f :: fs)) (g := fun fs => .ok (f :: fs))
            fun fs fs' _ hfs => .pure (by rw [hfs])
          rwa [Verdict.andThen_accepts] at hrest

/-- The scan of an array tells how the load goes, whatever lies behind. -/
theorem loadArrayElements_tracks : ∀ (n : ℕ) (iType : UInt32) {mem mem' : Bytes} {L : ℕ},
    mem <+: mem' → mem.length ≤ L → L < 2 ^ 32 →
    Tracks Eq (scanArrayElements n iType L mem) (loadArrayElements true n iType ⟨mem, L⟩)
      (loadArrayElements false n iType ⟨mem', L⟩)
  | 0, _, _, _, _, _, _, _ => by
    rw [scanArrayElements, loadArrayElements, loadArrayElements]
    exact .outOfFuel _
  | n + 1, iType, mem, mem', L, h, hm, hL => by
    simp only [loadArrayElements, scanArrayElements]
    by_cases h0 : L = 0
    · rw [if_pos h0, if_pos h0, if_pos h0]
      exact .pure rfl
    · rw [if_neg h0, if_neg h0, if_neg h0]
      by_cases hm4 : mem.length < 4
      · by_cases hL4 : L < 4
        · simp only [readUint32, readScalar, hL4, if_true, scanScalar]
          exact .refuse _
        · simp only [readUint32, readScalar, hL4, hm4, if_true, if_false, scanScalar]
          exact .fault _ rfl
      refine readUint32_chain h rfl fun hd hd4 => ?_
      simp only [toNat_lengthWord]
      cases hc : newObject iType with
      | none => exact .fault _ rfl
      | some c =>
        set len := lengthWord mem
        have hpre : (mem.drop 4).take len <+: mem'.drop 4 := (List.take_prefix _ _).trans hd
        refine (load_tracks n c hpre (List.length_take_le len _) (lengthWord_lt _)).bind ?_
        rintro f f' hok rfl
        have hn : 1 ≤ n := fuel_of_load hok
        have hid : f.id = iType := by
          rw [SISField.id, (load_sound true n hok).2]
          exact id_of_newObject hc
        by_cases hpast : mem.length < 4 + len
        · have hpast' : (mem.drop 4).length < len := by omega
          simp only [hpast, hpast', decide_true, Bool.and_self, if_true, true_or]
          exact .fault _ rfl
        · have hpast' : ¬ (mem.drop 4).length < len := by omega
          simp only [hpast, hpast', decide_false, Bool.and_false, Bool.false_and, Bool.false_eq_true,
            if_false, false_or, hid, ne_eq, not_true_eq_false]
          by_cases hpad : L < 4 + paddedLength len
          · obtain ⟨L', hadv, hL'⟩ := advance_wrapped (mem.drop 4) (L := L - 4) (k := len)
              (by omega) (by omega) (by omega) (by omega)
            rw [if_pos hpad, hadv, loadArrayElements_starved true iType hn hL']
            exact .fault _ rfl
          · have hple := le_paddedLength len
            rw [if_neg hpad, advance_eq (by omega) (by omega), advance_eq (by omega) (by omega),
              List.drop_drop, List.drop_drop]
            have hrest := (loadArrayElements_tracks n iType (L := L - 4 - paddedLength len)
              (h.drop (4 + paddedLength len)) (by rw [List.length_drop]; omega) (by omega)).bind
              (S := Eq) (v := .accepts) (f := fun fs => .ok (f :: fs)) (g := fun fs => .ok (f :: fs))
              fun fs fs' _ hfs => .pure (by rw [hfs])
            rwa [Verdict.andThen_accepts] at hrest

end

/-! ### Termination -/

/-- The run ended by itself. -/
def Terminates {α : Type} (r : Res α) : Prop := r ≠ .error .outOfFuel

theorem Terminates.bind {α β : Type} {r : Res α} {f : α → Res β} (h : Terminates r)
    (hf : ∀ a, r = .ok a → Terminates (f a)) : Terminates (r >>= f) := by
  cases r with
  | ok a => exact hf a rfl
  | error s =>
    intro he
    rw [error_bind] at he
    exact h (by injection he with he; rw [he])

theorem Terminates.ok {α : Type} (a : α) : Terminates (.ok a) := fun h => by cases h

theorem Terminates.stop {α : Type} {s : Stop} (hs : s ≠ .outOfFuel) : Terminates (.error s : Res α) := by
  intro h
  injection h with h
  exact hs h

theorem readScalar_terminates (k : ℕ) (cur : Cursor) : Terminates (readScalar k cur) := by
  unfold readScalar
  split
  · exact .stop (by decide)
  · split
    · exact .stop (by decide)
    · exact .ok _

theorem readUint8_terminates (cur : Cursor) : Terminates (readUint8 cur) :=
  (readScalar_terminates 1 cur).bind fun _ _ => .ok _

theorem readUint16_terminates (cur : Cursor) : Terminates (readUint16 cur) :=
  (readScalar_terminates 2 cur).bind fun _ _ => .ok _

theorem readUint32_terminates (cur : Cursor) : Terminates (readUint32 cur) :=
  (readScalar_terminates 4 cur).bind fun _ _ => .ok _

theorem readUint64_terminates (cur : Cursor) : Terminates (readUint64 cur) :=
  (readUint32_terminates cur).bind fun _ _ => (readUint32_terminates _).bind fun _ _ => .ok _

theorem copyMem_terminates (n : ℕ) (cur : Cursor) : Terminates (copyMem n cur) := by
  unfold copyMem
  split
  · exact .stop (by decide)
  · exact .ok _

theorem loadSimpleField_terminates (k : ℕ) (cur : Cursor) : Terminates (loadSimpleField k cur) := by
  unfold loadSimpleField
  split
  · exact .stop (by decide)
  · exact (copyMem_terminates k cur).bind fun _ _ => .ok _

theorem readChars_terminates : ∀ (n : ℕ) (cur : Cursor), Terminates (readChars n cur)
  | 0, _ => .ok _
  | n + 1, cur => (readUint16_terminates cur).bind fun _ _ =>
    (readChars_terminates n _).bind fun _ _ => .ok _

theorem Leaf.load_terminates (c : LeafClass) (cur : Cursor) : Terminates (Leaf.load c cur) := by
  cases c with
  | SISString => exact (readChars_terminates _ _).bind fun _ _ => .ok _
  | SISCompressed =>
    refine Terminates.bind ?_ fun _ _ => .ok _
    refine (readUint32_terminates cur).bind fun _ _ => (readUint64_terminates _).bind fun _ _ => ?_
    have hcopy (n : ℕ) (cur : Cursor) (f : Bytes → Sis.SISCompressed) :
        Terminates (copyMem n cur >>= fun b => .ok (f b)) := (copyMem_terminates n cur).bind fun _ _ => .ok _
    dsimp only
    split
    · split
      · exact .stop (by decide)
      · exact hcopy _ _ _
    · exact hcopy _ _ _
  | SISVersion =>
    exact (readUint32_terminates _).bind fun _ _ => (readUint32_terminates _).bind fun _ _ =>
      (readUint32_terminates _).bind fun _ _ => .ok _
  | SISDate =>
    exact (readUint16_terminates _).bind fun _ _ => (readUint8_terminates _).bind fun _ _ =>
      (readUint8_terminates _).bind fun _ _ => .ok _
  | SISTime =>
    exact (readUint8_terminates _).bind fun _ _ => (readUint8_terminates _).bind fun _ _ =>
      (readUint8_terminates _).bind fun _ _ => .ok _
  | SISProperty =>
    exact (readUint32_terminates _).bind fun _ _ => (readUint32_terminates _).bind fun _ _ => .ok _
  | SISUid | SISLanguage | SISDataIndex | SISControllerChecksum | SISDataChecksum =>
    exact (loadSimpleField_terminates _ _).bind fun _ _ => .ok _
  | SISBlob => exact (copyMem_terminates _ _).bind fun _ _ => .ok _
  | SISCapabilities =>
    simp only [load]
    split
    · exact .stop (by decide)
    · exact (copyMem_terminates _ _).bind fun _ _ => .ok _

theorem Compound.loadLeading_terminates (c : CompoundClass) (cur : Cursor) :
    Terminates (loadLeading c cur) := by
  cases c with
  | plain c | SISInfo | SISFileDescription => exact .ok _
  | SISHash => exact (readUint32_terminates _).bind fun _ _ => .ok _
  | SISExpression =>
    exact (readUint32_terminates _).bind fun _ _ => (readUint32_terminates _).bind fun _ _ => .ok _

theorem Compound.loadTrailing_terminates (c : Compound) (cur : Cursor) :
    Terminates (c.loadTrailing cur) := by
  cases c with
  | plain c | SISHash | SISExpression => exact .ok _
  | SISInfo =>
    exact (readUint8_terminates _).bind fun _ _ => (readUint8_terminates _).bind fun _ _ => .ok _
  | SISFileDescription =>
    exact (readUint32_terminates _).bind fun _ _ => (readUint32_terminates _).bind fun _ _ =>
      (readUint64_terminates _).bind fun _ _ => (readUint64_terminates _).bind fun _ _ =>
      (readUint32_terminates _).bind fun _ _ => .ok _

theorem readUint32_shrinks {cur cur' : Cursor} {v : UInt32} (h : readUint32 cur = .ok (v, cur')) :
    cur'.mem.length + 4 = cur.mem.length := by
  obtain ⟨⟨x, c⟩, hx, h⟩ := bind_eq_ok.mp h
  cases h
  unfold readScalar at hx
  split at hx
  · cases hx
  · split at hx
    · cases hx
    · next hm =>
      cases hx
      simp only [List.length_drop]
      omega

theorem loadLeading_shrinks {c : CompoundClass} {cur cur' : Cursor} {obj : Compound}
    (h : Compound.loadLeading c cur = .ok (obj, cur')) : cur'.mem.length ≤ cur.mem.length := by
  cases c with
  | plain c | SISInfo | SISFileDescription =>
    cases h
    exact le_rfl
  | SISHash =>
    obtain ⟨⟨x, c1⟩, h1, h⟩ := bind_eq_ok.mp h
    cases h
    have := readUint32_shrinks h1
    omega
  | SISExpression =>
    obtain ⟨⟨x, c1⟩, h1, h⟩ := bind_eq_ok.mp h
    obtain ⟨⟨y, c2⟩, h2, h⟩ := bind_eq_ok.mp h
    cases h
    have := readUint32_shrinks h1
    have := readUint32_shrinks h2
    omega

theorem length_region_le (confine : Bool) (cur : Cursor) (k : ℕ) :
    (cur.region confine k).mem.length ≤ cur.mem.length := by
  cases confine with
  | false => exact le_rfl
  | true => exact List.length_take_le' k cur.mem

theorem length_advance_le (cur : Cursor) (k : ℕ) : (cur.advance k).mem.length ≤ cur.mem.length := by
  simp only [Cursor.advance, List.length_drop]
  omega

theorem loadOneField_shrinks {confine : Bool} {n : ℕ} {cur next : Cursor} {f : SISField}
    (h : loadOneField confine n cur = .ok (some f, next)) : next.mem.length + 8 ≤ cur.mem.length := by
  cases n with
  | zero => cases h
  | succ n =>
    rw [loadOneField] at h
    split at h
    · cases h
    · obtain ⟨⟨type, c1⟩, h1, h⟩ := bind_eq_ok.mp h
      obtain ⟨⟨len, c2⟩, h2, h⟩ := bind_eq_ok.mp h
      simp only at h
      split at h
      · cases h
      · obtain ⟨g, hg, h⟩ := bind_eq_ok.mp h
        cases h
        have := readUint32_shrinks h1
        have := readUint32_shrinks h2
        have := length_advance_le c2 len.toNat
        omega

mutual

theorem load_terminates (confine : Bool) : ∀ (n : ℕ) (c : FieldClass) (cur : Cursor),
    cur.mem.length + 3 ≤ n → Terminates (load confine n c cur)
  | 0, _, _, hn => by omega
  | n + 1, .leaf c, cur, _ => by
    rw [load]
    exact (Leaf.load_terminates c cur).bind fun _ _ => .ok _
  | n + 1, .SISArray, cur, hn => by
    rw [load]
    refine (readUint32_terminates cur).bind fun p hp => ?_
    have := readUint32_shrinks hp
    exact (loadArrayElements_terminates confine n _ _ (by omega)).bind fun _ _ => .ok _
  | n + 1, .compound c, cur, hn => by
    rw [load]
    split
    · exact .stop (by decide)
    · refine (Compound.loadLeading_terminates c cur).bind fun p hp => ?_
      have := loadLeading_shrinks hp
      have := length_region_le confine p.2 (p.2.aLength - c.trailingLength)
      exact (loadElements_terminates confine n _ (by omega)).bind fun _ _ =>
        (Compound.loadTrailing_terminates _ _).bind fun _ _ => .ok _

theorem loadOneField_terminates (confine : Bool) : ∀ (n : ℕ) (cur : Cursor),
    cur.mem.length + 1 ≤ n → Terminates (loadOneField confine n cur)
  | 0, _, hn => by omega
  | n + 1, cur, hn => by
    rw [loadOneField]
    split
    · exact .ok _
    · refine (readUint32_terminates cur).bind fun p hp => (readUint32_terminates p.2).bind fun q hq => ?_
      have := readUint32_shrinks hp
      have := readUint32_shrinks hq
      dsimp only
      split
      · exact .stop (by decide)
      · next c _ =>
        have := length_region_le confine q.2 q.1.toNat
        exact (load_terminates confine n c _ (by omega)).bind fun _ _ => .ok _

theorem loadElements_terminates (confine : Bool) : ∀ (n : ℕ) (cur : Cursor),
    cur.mem.length + 2 ≤ n → Terminates (loadElements confine n cur)
  | 0, _, hn => by omega
  | n + 1, cur, hn => by
    rw [loadElements]
    split
    · exact .ok _
    · refine (loadOneField_terminates confine n cur (by omega)).bind fun p hp => ?_
      obtain ⟨field, next⟩ := p
      dsimp only
      split
      · exact .stop (by decide)
      · cases field with
        | none => exact .stop (by decide)
        | some f =>
          have := loadOneField_shrinks hp
          exact (loadElements_terminates confine n next (by omega)).bind fun _ _ => .ok _

theorem loadArrayElements_terminates (confine : Bool) : ∀ (n : ℕ) (iType : UInt32) (cur : Cursor),
    cur.mem.length + 2 ≤ n → Terminates (loadArrayElements confine n iType cur)
  | 0, _, _, hn => by omega
  | n + 1, iType, cur, hn => by
    rw [loadArrayElements]
    split
    · exact .ok _
    · refine (readUint32_terminates cur).bind fun p hp => ?_
      have := readUint32_shrinks hp
      dsimp only
      split
      · exact .stop (by decide)
      · next c _ =>
        have := length_region_le confine p.2 p.1.toNat
        refine (load_terminates confine n c _ (by omega)).bind fun f _ => ?_
        split
        · exact .stop (by decide)
        · split
          · exact .stop (by decide)
          · have := length_advance_le p.2 p.1.toNat
            exact (loadArrayElements_terminates confine n iType _ (by omega)).bind fun _ _ => .ok _

end

/-! ### The bounds of a whole buffer -/

/-- The watched run over a whole buffer. -/
def loadBufferWatched (s : Bytes) : Res (Option SISField × Cursor) :=
  loadOneField true (loadFuel s) ⟨s, s.length⟩

/-- The length words of a buffer do not lead outside it, up to the first refused field. -/
def scanBuffer (s : Bytes) : Verdict := scanOneField (loadFuel s) s.length s

/-- `LoadOneField` returns a field or throws, and does the same when every `Load` is confined to the bytes
of its own field and every nested field to its enclosing one. -/
def StaysInside (s : Bytes) : Prop :=
  loadBufferWatched s = loadBuffer s ∧
    ((∃ f cur, loadBuffer s = .ok (some f, cur)) ∨ ∃ e, loadBuffer s = .error (.throws e))

/-- **Bounds of the loader.**  `LoadOneField` ends on every buffer; it stays inside a buffer exactly if
there is a field to read and the scan of the length words finds no fault. -/
theorem loadBuffer_staysInside_iff (s : Bytes) (hlt : s.length < 2 ^ 32) :
    Terminates (loadBuffer s) ∧ (StaysInside s ↔ s ≠ [] ∧ (scanBuffer s).Settled) := by
  refine ⟨loadOneField_terminates false _ _ le_rfl, ?_⟩
  by_cases hs : s = []
  · subst hs
    refine ⟨?_, fun h => absurd rfl h.1⟩
    rintro ⟨-, ⟨f, cur, h⟩ | ⟨e, h⟩⟩ <;> cases h
  have hne : s.length ≠ 0 := fun h => hs (List.eq_nil_of_length_eq_zero h)
  obtain ⟨hv, hok, hthrow⟩ := loadOneField_tracks (loadFuel s) (List.prefix_refl s) hne
  change verdict (loadBufferWatched s) = scanBuffer s at hv
  constructor
  · rintro ⟨heq, hr⟩
    refine ⟨hs, ?_⟩
    rw [← hv, heq]
    rcases hr with ⟨f, cur, h⟩ | ⟨e, h⟩
    · rw [h]
      exact Or.inl rfl
    · rw [h]
      exact Or.inr rfl
  · rintro ⟨-, hset⟩
    rw [← hv] at hset
    cases hw : loadBufferWatched s with
    | ok p =>
      obtain ⟨⟨field', next'⟩, hreal, ⟨f, hf, hf'⟩, hp, hp'⟩ := hok p hw
      change loadBuffer s = .ok (field', next') at hreal
      simp only at hf' hp'
      subst hf' hp'
      refine ⟨?_, Or.inl ⟨f, _, hreal⟩⟩
      rw [hw, hreal, ← hp, ← hf]
    | error e =>
      cases e with
      | throws e =>
        have hreal : loadBuffer s = .error (.throws e) := hthrow e hw
        exact ⟨by rw [hw, hreal], Or.inr ⟨e, hreal⟩⟩
      | outOfBounds | nullField | aborts | exits | outOfFuel =>
        rw [hw] at hset
        rcases hset with h | h <;> cases h

/-- A blob of four bytes of which none is there. -/
def shortBlob : Bytes := [37, 0, 0, 0, 4, 0, 0, 0]

/-- An array of a type without class that has an element. -/
def nullArray : Bytes := [2, 0, 0, 0, 8, 0, 0, 0, 10, 0, 0, 0, 0, 0, 0, 0]

/-- The blob is read past the end of the buffer, the element loaded through `NULL`. -/
theorem loadBuffer_shortBlob :
    loadBuffer shortBlob = .error .outOfBounds ∧ loadBuffer nullArray = .error .nullField ∧
      ¬ StaysInside shortBlob := by
  refine ⟨rfl, rfl, ?_⟩
  rintro ⟨-, ⟨f, cur, h⟩ | ⟨e, h⟩⟩ <;> cases h

/-- A `SISUid` of three bytes. -/
def shortUid : Bytes := [9, 0, 0, 0, 3, 0, 0, 0, 1, 2, 3]

theorem loadBuffer_staysInside_iff_short :
    Terminates (loadBuffer shortUid) ∧
      (StaysInside shortUid ↔ shortUid ≠ [] ∧ (scanBuffer shortUid).Settled) :=
  loadBuffer_staysInside_iff shortUid (by decide)

/-- It is refused without a look beyond it. -/
example : scanBuffer shortUid = .refuses := by decide

end GnuPoc.Sis
