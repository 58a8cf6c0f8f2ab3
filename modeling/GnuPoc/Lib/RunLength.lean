import GnuPoc.Lib.LittleEndian
import Mathlib.Tactic.Common

/-!
# GnuPoc.Lib.RunLength — packets of repeated and of literal pixels

A run-length coded sequence of pixels of `w` bytes is a row of packets.  Each has one byte in front: below 128 it
is followed by one pixel to repeat, one time more than the byte says; from 128 on by as many pixels as the byte
lacks of 256.
-/

namespace GnuPoc.Lib

/-! ### Searches for the end of a stretch -/

/-- A search in steps of `w` that goes on while the next place is good and below a limit; `d` is what it steps before
it looks. -/
structure Search (w d limit : ℕ) (go : ℕ → Prop) (stop : ℕ → ℕ) : Prop where
  turn : ∀ p, go (p + d) ∧ p + d < limit ∧ stop p = stop (p + w) ∨ stop p = p + d

section
variable {w d limit p : ℕ} {go : ℕ → Prop} {stop : ℕ → ℕ}

/-- What every step keeps holds where the search stops. -/
theorem Search.ends (h : Search w d limit go stop) (hw : 0 < w) {Q : ℕ → Prop}
    (hstep : ∀ q, Q q → q < limit → Q (q + w)) (hp : Q (p + d)) : Q (stop p) := by
  induction hn : limit - p using Nat.strong_induction_on generalizing p with
  | _ n ih =>
    subst hn
    rcases h.turn p with ⟨-, hlt, hstop⟩ | hstop
    · have hnext := hstep _ hp hlt
      rw [Nat.add_right_comm] at hnext
      rw [hstop]
      exact ih _ (by omega) hnext rfl
    · rwa [hstop]

theorem Search.le (h : Search w d limit go stop) (hw : 0 < w) (p : ℕ) : p + d ≤ stop p :=
  h.ends hw (fun _ hq _ => Nat.le_add_right_of_le hq) le_rfl

theorem Search.dvd (h : Search w d limit go stop) (hw : 0 < w) (hp : w ∣ p + d) : w ∣ stop p :=
  h.ends hw (fun _ hq _ => Nat.dvd_add hq dvd_rfl) hp

theorem Search.aligned (h : Search w d limit go stop) (hw : 0 < w) (hlimit : w ∣ limit) (hp : w ∣ p + d)
    (hle : p + d ≤ limit) : w ∣ stop p ∧ stop p ≤ limit := by
  refine @Search.ends w d limit p go stop h hw (fun q => w ∣ q ∧ q ≤ limit) (fun q hq hlt => ?_) ⟨hp, hle⟩
  have hroom := Nat.le_of_dvd (Nat.sub_pos_of_lt hlt) (Nat.dvd_sub hlimit hq.1)
  exact ⟨Nat.dvd_add hq.1 dvd_rfl, by omega⟩

/-- The search has stepped over good places only. -/
theorem Search.passed (h : Search w d limit go stop) {i : ℕ} (hi : p + d + w * i < stop p) : go (p + d + w * i) := by
  induction i generalizing p with
  | zero =>
    rcases h.turn p with ⟨hgo, -⟩ | hstop
    · exact hgo
    · omega
  | succ i ih =>
    have hnext : p + d + w * (i + 1) = p + w + d + w * i := by
      rw [Nat.mul_succ]
      omega
    rw [hnext] at hi ⊢
    rcases h.turn p with ⟨-, -, hstop⟩ | hstop
    · exact ih (hstop ▸ hi)
    · omega

end

/-! ### Packets -/

inductive Packet where
  | run (pixel : Bytes) (count : ℕ)
  | literal (count : ℕ) (pixels : Bytes)
  deriving DecidableEq

namespace Packet

/-- What the packet stands for. -/
def output : Packet → Bytes
  | run pixel count => (List.replicate count pixel).flatten
  | literal _ pixels => pixels

def bytes : Packet → Bytes
  | run pixel count => UInt8.ofNat (count - 1) :: pixel
  | literal count pixels => UInt8.ofNat (256 - count) :: pixels

/-- A packet of pixels of `w` bytes, of a number that the byte in front holds. -/
def Valid (w : ℕ) : Packet → Prop
  | run pixel count => pixel.length = w ∧ 0 < count ∧ count ≤ 128
  | literal count pixels => pixels.length = w * count ∧ 0 < count ∧ count ≤ 128

theorem length_output_run (pixel : Bytes) (count : ℕ) : (run pixel count).output.length = count * pixel.length := by
  simp [output]

theorem length_bytes_pos (p : Packet) : 0 < p.bytes.length := by
  cases p <;> simp [bytes]

theorem length_output_pos {w : ℕ} (hw : 0 < w) {p : Packet} (hp : p.Valid w) : 0 < p.output.length := by
  cases p with
  | run pixel count =>
    obtain ⟨hlen, hpos, -⟩ := hp
    rw [length_output_run, hlen]
    exact Nat.mul_pos hpos hw
  | literal count pixels =>
    obtain ⟨hlen, hpos, -⟩ := hp
    rw [output, hlen]
    exact Nat.mul_pos hw hpos

/-- The packet at the front, and what is behind it. -/
def take (w : ℕ) : Bytes → Option (Packet × Bytes)
  | [] => none
  | h :: t =>
    if h < 128 then
      if w ≤ t.length then some (run (t.take w) (h.toNat + 1), t.drop w) else none
    else
      if w * (256 - h.toNat) ≤ t.length then
        some (literal (256 - h.toNat) (t.take (w * (256 - h.toNat))), t.drop (w * (256 - h.toNat)))
      else none

theorem take_bytes_append {w : ℕ} {p : Packet} (hp : p.Valid w) (rest : Bytes) :
    take w (p.bytes ++ rest) = some (p, rest) := by
  cases p with
  | run pixel count =>
    obtain ⟨hlen, hpos, hle⟩ := hp
    have hh : (UInt8.ofNat (count - 1)).toNat = count - 1 := by
      rw [UInt8.toNat_ofNat']
      omega
    have hlt : UInt8.ofNat (count - 1) < 128 := by
      rw [UInt8.lt_iff_toNat_lt, hh]
      exact Nat.lt_of_lt_of_le (Nat.sub_lt hpos Nat.one_pos) hle
    rw [bytes, List.cons_append, take, if_pos hlt, if_pos (by simp [hlen]), hh, List.take_left' hlen,
      List.drop_left' hlen, Nat.sub_add_cancel hpos]
  | literal count pixels =>
    obtain ⟨hlen, hpos, hle⟩ := hp
    have hh : (UInt8.ofNat (256 - count)).toNat = 256 - count := by
      rw [UInt8.toNat_ofNat']
      omega
    have hge : ¬ UInt8.ofNat (256 - count) < 128 := by
      rw [UInt8.lt_iff_toNat_lt, hh]
      have : (128 : UInt8).toNat = 128 := rfl
      omega
    have hcount : 256 - (256 - count) = count := by omega
    rw [bytes, List.cons_append, take, if_neg hge, hh, hcount, if_pos (by simp [hlen]), List.take_left' hlen,
      List.drop_left' hlen]

theorem take_eq_some {w : ℕ} {bs rest : Bytes} {p : Packet} (h : take w bs = some (p, rest)) :
    p.Valid w ∧ bs = p.bytes ++ rest := by
  cases bs with
  | nil => simp [take] at h
  | cons b t =>
    rw [take] at h
    by_cases hb : b < 128
    · rw [if_pos hb, Option.ite_none_right_eq_some] at h
      obtain ⟨hlen, h⟩ := h
      simp only [Option.some.injEq, Prod.mk.injEq] at h
      obtain ⟨rfl, rfl⟩ := h
      have hb' : b.toNat < 128 := UInt8.lt_iff_toNat_lt.mp hb
      refine ⟨⟨List.length_take_of_le hlen, by omega, by omega⟩, ?_⟩
      simp [bytes]
    · rw [if_neg hb, Option.ite_none_right_eq_some] at h
      obtain ⟨hlen, h⟩ := h
      simp only [Option.some.injEq, Prod.mk.injEq] at h
      obtain ⟨rfl, rfl⟩ := h
      have hb' : ¬ b.toNat < 128 := fun hlt => hb (UInt8.lt_iff_toNat_lt.mpr hlt)
      have hlt : b.toNat < 256 := b.toNat_lt
      refine ⟨⟨List.length_take_of_le hlen, by omega, by omega⟩, ?_⟩
      have hback : 256 - (256 - b.toNat) = b.toNat := by omega
      simp [bytes, hback]

end Packet

/-- The packets of a coded sequence, and what is left of a last one that is not complete. -/
def packets (w : ℕ) (bs : Bytes) : List Packet × Bytes :=
  match h : Packet.take w bs with
  | none => ([], bs)
  | some (p, rest) =>
    have : rest.length < bs.length := by
      rw [(Packet.take_eq_some h).2, List.length_append]
      have := p.length_bytes_pos
      omega
    (p :: (packets w rest).1, (packets w rest).2)
termination_by bs.length

theorem packets_none {w : ℕ} {bs : Bytes} (h : Packet.take w bs = none) : packets w bs = ([], bs) := by
  rw [packets]
  split
  · rfl
  · rename_i h'
    rw [h] at h'
    exact absurd h' (by simp)

theorem packets_some {w : ℕ} {bs rest : Bytes} {p : Packet} (h : Packet.take w bs = some (p, rest)) :
    packets w bs = (p :: (packets w rest).1, (packets w rest).2) := by
  rw [packets]
  split
  · rename_i h'
    rw [h] at h'
    exact absurd h' (by simp)
  · rename_i h'
    rw [h] at h'
    simp only [Option.some.injEq, Prod.mk.injEq] at h'
    obtain ⟨rfl, rfl⟩ := h'
    rfl

theorem packets_flatMap_bytes {w : ℕ} {ps : List Packet} (h : ∀ p ∈ ps, p.Valid w) :
    packets w (ps.flatMap Packet.bytes) = (ps, []) := by
  induction ps with
  | nil => exact packets_none rfl
  | cons p ps ih =>
    rw [List.forall_mem_cons] at h
    rw [List.flatMap_cons, packets_some (Packet.take_bytes_append h.1 _), ih h.2]

/-- The bytes `out` are packets of pixels of `w` bytes that stand for `src`. -/
def Encodes (w : ℕ) (out src : Bytes) : Prop :=
  ∃ ps : List Packet, (∀ p ∈ ps, p.Valid w) ∧ ps.flatMap Packet.bytes = out ∧ ps.flatMap Packet.output = src

namespace Encodes

variable {w : ℕ} {out src out' src' : Bytes}

theorem nil : Encodes w [] [] := ⟨[], by simp, rfl, rfl⟩

theorem append (h : Encodes w out src) (h' : Encodes w out' src') : Encodes w (out ++ out') (src ++ src') := by
  obtain ⟨ps, hv, rfl, rfl⟩ := h
  obtain ⟨ps', hv', rfl, rfl⟩ := h'
  exact ⟨ps ++ ps', List.forall_mem_append.mpr ⟨hv, hv'⟩, by simp, by simp⟩

theorem packet {p : Packet} (hp : p.Valid w) : Encodes w p.bytes p.output :=
  ⟨[p], by simpa using hp, by simp, by simp⟩

end Encodes

/-- Pieces of the given sizes, one behind the other into `room`: none overruns it, and where they end before it is
full nothing is left over. -/
def LaidInto (leftover : Prop) : List ℕ → ℕ → Prop
  | [], room => room = 0 ∨ ¬ leftover
  | size :: sizes, room => room = 0 ∨ (size ≤ room ∧ LaidInto leftover sizes (room - size))

end GnuPoc.Lib

/-!
### A part of a memory as a list

A memory is a function of the address; a window is the list of the cells from an address on.
-/

namespace GnuPoc.Lib

variable {β : Type}

/-- The `n` cells from address `p` on. -/
def window (mem : ℕ → β) (p n : ℕ) : List β := (List.range n).map fun i => mem (p + i)

variable (mem : ℕ → β)

@[simp] theorem length_window (p n : ℕ) : (window mem p n).length = n := by
  simp [window]

@[simp] theorem window_zero (p : ℕ) : window mem p 0 = [] := rfl

@[simp] theorem window_one (p : ℕ) : window mem p 1 = [mem p] := rfl

theorem window_add (p m n : ℕ) : window mem p (m + n) = window mem p m ++ window mem (p + m) n := by
  simp only [window, List.range_add, List.map_append, List.map_map]
  congr 1
  refine List.map_congr_left fun i _ => ?_
  simp only [Function.comp_apply, Nat.add_assoc]

theorem window_split {m n : ℕ} (h : m ≤ n) : window mem 0 m ++ window mem m (n - m) = window mem 0 n := by
  obtain ⟨k, rfl⟩ := Nat.exists_eq_add_of_le h
  rw [window_add, Nat.zero_add, Nat.add_sub_cancel_left]

theorem window_succ (p n : ℕ) : window mem p (n + 1) = mem p :: window mem (p + 1) n := by
  rw [Nat.add_comm n 1, window_add, window_one, List.singleton_append]

theorem take_window (p : ℕ) {m n : ℕ} (h : m ≤ n) : (window mem p n).take m = window mem p m := by
  obtain ⟨k, rfl⟩ := Nat.exists_eq_add_of_le h
  rw [window_add, List.take_left' (length_window mem p m)]

theorem drop_window (p : ℕ) {m n : ℕ} (h : m ≤ n) : (window mem p n).drop m = window mem (p + m) (n - m) := by
  obtain ⟨k, rfl⟩ := Nat.exists_eq_add_of_le h
  rw [window_add, List.drop_left' (length_window mem p m), Nat.add_sub_cancel_left]

/-- A memory that holds a list, and something behind it. -/
def memoryOf (l : List β) (beyond : ℕ → β) (i : ℕ) : β := (l[i]?).getD (beyond i)

theorem window_memoryOf (l : List β) (beyond : ℕ → β) : window (memoryOf l beyond) 0 l.length = l := by
  refine List.ext_getElem (by simp) fun i hi hi' => ?_
  simp [window, memoryOf, hi']

end GnuPoc.Lib
