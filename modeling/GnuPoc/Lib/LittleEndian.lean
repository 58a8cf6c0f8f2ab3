import Mathlib.Data.List.Basic
import Mathlib.Tactic.Ring

/-!
# GnuPoc.Lib.LittleEndian — little-endian byte strings

`leBytes k n` is the `k`-byte little-endian form of `n` (its low `8 * k` bits) and `ofLE` reads such a
form back.  Both directions of the round trip are proved for every width.  Nothing here knows about a
file format.
-/

namespace GnuPoc.Lib

abbrev Bytes := List UInt8

/-- The low `k` bytes of `n`, least significant first. -/
def leBytes : ℕ → ℕ → Bytes
  | 0, _ => []
  | k + 1, n => UInt8.ofNat (n % 256) :: leBytes k (n / 256)

/-- The number a little-endian byte string stands for. -/
def ofLE : Bytes → ℕ
  | [] => 0
  | b :: bs => b.toNat + 256 * ofLE bs

@[simp] theorem length_leBytes (k n : ℕ) : (leBytes k n).length = k := by
  induction k generalizing n with
  | zero => rfl
  | succ k ih => simp [leBytes, ih]

theorem ofLE_lt (bs : Bytes) : ofLE bs < 256 ^ bs.length := by
  induction bs with
  | nil => simp [ofLE]
  | cons b bs ih =>
    have hb : b.toNat < 256 := b.toNat_lt
    simp only [ofLE, List.length_cons, Nat.pow_succ]
    omega

theorem ofLE_leBytes (k n : ℕ) : ofLE (leBytes k n) = n % 256 ^ k := by
  induction k generalizing n with
  | zero => simp [leBytes, ofLE, Nat.mod_one]
  | succ k ih =>
    have h : (UInt8.ofNat (n % 256)).toNat = n % 256 := by
      simp only [UInt8.toNat_ofNat']
      omega
    rw [leBytes, ofLE, h, ih, Nat.pow_succ, Nat.mul_comm (256 ^ k) 256, Nat.mod_mul]

theorem ofLE_leBytes_of_lt {k n : ℕ} (h : n < 256 ^ k) : ofLE (leBytes k n) = n := by
  rw [ofLE_leBytes, Nat.mod_eq_of_lt h]

theorem ofLE_take_lt (k : ℕ) (bs : Bytes) : ofLE (bs.take k) < 256 ^ k :=
  (ofLE_lt _).trans_le (Nat.pow_le_pow_right (by omega) (List.length_take_le k bs))

/-- Reading past `j` bytes adds the bytes behind them at their weight. -/
theorem ofLE_take_add (j k : ℕ) (bs : Bytes) :
    ofLE (bs.take (j + k)) = ofLE (bs.take j) + 256 ^ j * ofLE ((bs.drop j).take k) := by
  induction j generalizing bs with
  | zero => simp [ofLE]
  | succ j ih =>
    cases bs with
    | nil => simp [ofLE]
    | cons b bs =>
      rw [Nat.succ_add, List.take_succ_cons, List.take_succ_cons, List.drop_succ_cons, ofLE, ofLE, ih]
      ring

theorem leBytes_ofLE (bs : Bytes) : leBytes bs.length (ofLE bs) = bs := by
  induction bs with
  | nil => rfl
  | cons b bs ih =>
    have hb : b.toNat < 256 := b.toNat_lt
    have h1 : (b.toNat + 256 * ofLE bs) % 256 = b.toNat := by omega
    have h2 : (b.toNat + 256 * ofLE bs) / 256 = ofLE bs := by omega
    simp only [List.length_cons, leBytes, ofLE, h1, h2, ih, UInt8.ofNat_toNat]

theorem leBytes_mod (k n : ℕ) : leBytes k (n % 256 ^ k) = leBytes k n := by
  have h := leBytes_ofLE (leBytes k n)
  rwa [length_leBytes, ofLE_leBytes] at h

theorem leBytes_add (j k n : ℕ) : leBytes (j + k) n = leBytes j n ++ leBytes k (n / 256 ^ j) := by
  induction j generalizing n with
  | zero => simp [leBytes]
  | succ j ih =>
    rw [Nat.succ_add, leBytes, leBytes, ih, Nat.pow_succ, Nat.mul_comm (256 ^ j) 256,
      Nat.div_div_eq_div_mul, List.cons_append]

/-! ### The lowest byte of a word -/

theorem ofNat_mod_byte (n : ℕ) : UInt8.ofNat (n % 256) = UInt8.ofNat n := by
  rw [← UInt8.toNat_inj, UInt8.toNat_ofNat', UInt8.toNat_ofNat']
  exact Nat.mod_mod _ _

theorem toUInt8_byte (u : UInt32) : (u &&& 0xff).toUInt8 = u.toUInt8 := by
  rw [← UInt8.toNat_inj, UInt32.toNat_toUInt8, UInt32.toNat_toUInt8, UInt32.toNat_and]
  show (u.toNat &&& (2 ^ 8 - 1)) % 2 ^ 8 = _
  rw [Nat.and_two_pow_sub_one_eq_mod, Nat.mod_mod]

theorem toUInt8_eq_ofNat (u : UInt32) : u.toUInt8 = UInt8.ofNat u.toNat := by
  rw [← UInt8.toNat_inj, UInt32.toNat_toUInt8, UInt8.toNat_ofNat']

/-!
### The memory of a host

How a host keeps its numbers, and the exchange of bytes with which a program for either kind of host
writes the little-endian form.
-/

inductive ByteOrder
  | little | big
  deriving DecidableEq, Repr

namespace ByteOrder

/-- Bytes in this order, from little-endian ones or back. -/
def arrange : ByteOrder → Bytes → Bytes
  | little, bytes => bytes
  | big, bytes => bytes.reverse

/-- The number in a word of memory. -/
def load (o : ByteOrder) (bytes : Bytes) : ℕ := ofLE (o.arrange bytes)

def bytes16 (o : ByteOrder) (v : UInt16) : Bytes := o.arrange (leBytes 2 v.toNat)

def bytes32 (o : ByteOrder) (v : UInt32) : Bytes := o.arrange (leBytes 4 v.toNat)

/-- The number whose bytes are exchanged on a big-endian host. -/
def flip16 (o : ByteOrder) (v : UInt16) : UInt16 := UInt16.ofNat (o.load (leBytes 2 v.toNat))

def flip32 (o : ByteOrder) (v : UInt32) : UInt32 := UInt32.ofNat (o.load (leBytes 4 v.toNat))

variable (o : ByteOrder)

@[simp] theorem length_arrange (bytes : Bytes) : (o.arrange bytes).length = bytes.length := by
  cases o with
  | little => rfl
  | big => exact List.length_reverse

@[simp] theorem arrange_arrange (bytes : Bytes) : o.arrange (o.arrange bytes) = bytes := by
  cases o with
  | little => rfl
  | big => exact List.reverse_reverse bytes

@[simp] theorem length_bytes16 (v : UInt16) : (o.bytes16 v).length = 2 := by
  rw [bytes16, length_arrange, length_leBytes]

@[simp] theorem length_bytes32 (v : UInt32) : (o.bytes32 v).length = 4 := by
  rw [bytes32, length_arrange, length_leBytes]

theorem leBytes_load (bytes : Bytes) : leBytes bytes.length (o.load bytes) = o.arrange bytes := by
  have h := leBytes_ofLE (o.arrange bytes)
  rwa [length_arrange] at h

theorem load_lt (bytes : Bytes) : o.load bytes < 256 ^ bytes.length := by
  have h := ofLE_lt (o.arrange bytes)
  rwa [length_arrange] at h

theorem leBytes_flip16 (v : UInt16) : leBytes 2 (o.flip16 v).toNat = o.arrange (leBytes 2 v.toNat) := by
  have hlt := o.load_lt (leBytes 2 v.toNat)
  have h := o.leBytes_load (leBytes 2 v.toNat)
  rw [length_leBytes] at hlt h
  rw [flip16, UInt16.toNat_ofNat', Nat.mod_eq_of_lt (by simpa using hlt), h]

theorem leBytes_flip32 (v : UInt32) : leBytes 4 (o.flip32 v).toNat = o.arrange (leBytes 4 v.toNat) := by
  have hlt := o.load_lt (leBytes 4 v.toNat)
  have h := o.leBytes_load (leBytes 4 v.toNat)
  rw [length_leBytes] at hlt h
  rw [flip32, UInt32.toNat_ofNat', Nat.mod_eq_of_lt (by simpa using hlt), h]

/-- A number whose bytes were exchanged stands in memory as its little-endian form. -/
@[simp] theorem bytes16_flip16 (v : UInt16) : o.bytes16 (o.flip16 v) = leBytes 2 v.toNat := by
  rw [bytes16, leBytes_flip16, arrange_arrange]

@[simp] theorem bytes32_flip32 (v : UInt32) : o.bytes32 (o.flip32 v) = leBytes 4 v.toNat := by
  rw [bytes32, leBytes_flip32, arrange_arrange]

theorem flip32_flip32 (v : UInt32) : o.flip32 (o.flip32 v) = v := by
  conv_lhs => rw [flip32, leBytes_flip32, load, arrange_arrange]
  rw [ofLE_leBytes_of_lt v.toNat_lt, UInt32.ofNat_toNat]

end ByteOrder

end GnuPoc.Lib
