import GnuPoc.Bmconv.Expand

/-!
# GnuPoc.Bmconv.ExpandSafety — what corrupt data make of an expansion

An expansion copies each packet before it looks at its limits.  It stays inside both buffers exactly for data whose
packets end where the destination is full, or with the source in front of that.
-/

namespace GnuPoc.Bmconv

open Lib TBitmapfileCompression

/-- What the parts of compressed data expand to, in bytes, and what is left behind the last complete part. -/
def piecesOf (iCompression : TBitmapfileCompression) (mem : ℕ → UInt8) (size : ℕ) : List ℕ × Bytes :=
  match iCompression with
  | EByteRLECompression => pieces 1 (window mem 0 size)
  | ETwelveBitRLECompression => (twelvePieces mem 0 (size / 2), window mem (size / 2 * 2) (size % 2))
  | ESixteenBitRLECompression => pieces 2 (window mem 0 size)
  | ETwentyFourBitRLECompression => pieces 3 (window mem 0 size)
  | ENoBitmapCompression => ([], [])

/-- The data expand to exactly so many bytes. -/
def ExpandsTo (iCompression : TBitmapfileCompression) (mem : ℕ → UInt8) (size expandedsize : ℕ) : Prop :=
  (piecesOf iCompression mem size).1.sum = expandedsize ∧ (piecesOf iCompression mem size).2 = []

/-- A run that neither leaves a buffer nor takes data for what they are not. -/
structure Sound (iCompression : TBitmapfileCompression) (mem : ℕ → UInt8) (size expandedsize : ℕ) : Prop where
  reads : (expandData iCompression expandedsize mem size).aSrce ≤ size
  writes : (expandData iCompression expandedsize mem size).aDest.length ≤ expandedsize
  reports : ¬ ExpandsTo iCompression mem size expandedsize →
    (expandData iCompression expandedsize mem size).ret = .DecompressionError

/-- The bytes of the destination that are looked at. -/
def destlimitOf (iCompression : TBitmapfileCompression) (expandedsize : ℕ) : ℕ :=
  match iCompression with
  | ETwelveBitRLECompression | ESixteenBitRLECompression => expandedsize / 2 * 2
  | _ => expandedsize

/-- Something of the data that is looked at is left over: a last half of a word is not. -/
def LeftOver (iCompression : TBitmapfileCompression) (mem : ℕ → UInt8) (size : ℕ) : Prop :=
  match iCompression with
  | ETwelveBitRLECompression => False
  | c => (piecesOf c mem size).2 ≠ []

/-- The sizes count whole words, where the expansion counts in words. -/
def WholeWords (iCompression : TBitmapfileCompression) (size expandedsize : ℕ) : Prop :=
  match iCompression with
  | ETwelveBitRLECompression => size % 2 = 0 ∧ expandedsize % 2 = 0
  | ESixteenBitRLECompression => expandedsize % 2 = 0
  | _ => True

/-- The parts of the data can be laid into the destination one behind the other, and where they seem to fill it
they do. -/
structure WellPacked (iCompression : TBitmapfileCompression) (mem : ℕ → UInt8) (size expandedsize : ℕ) : Prop where
  laid : LaidInto (LeftOver iCompression mem size) (piecesOf iCompression mem size).1
    (destlimitOf iCompression expandedsize)
  whole : (piecesOf iCompression mem size).1.sum = destlimitOf iCompression expandedsize →
    ¬ LeftOver iCompression mem size → WholeWords iCompression size expandedsize

theorem checkLimits_ret {srcelimit destlimit : ℕ} {r : ℕ × Bytes} :
    (checkLimits srcelimit destlimit r).ret = .DecompressionError ↔ ¬ (r.1 = srcelimit ∧ r.2.length = destlimit) := by
  simp only [checkLimits]
  split <;> simp <;> omega

/-- The loop of packets ends at both limits exactly where the packets fill the destination. -/
theorem expandLoop_ends_iff {w : ℕ} (hw : 0 < w) (mem : ℕ → UInt8) (size destlimit : ℕ) :
    ((expandLoop w mem size destlimit 0 []).1 = size ∧ (expandLoop w mem size destlimit 0 []).2.length = destlimit) ↔
      (pieces w (window mem 0 size)).1.sum = destlimit ∧ (pieces w (window mem 0 size)).2 = [] := by
  constructor
  · rintro ⟨h1, h2⟩
    exact expandLoop_ends mem size destlimit 0 [] (Nat.zero_le _) (Nat.zero_le _) h1 h2
  · rintro ⟨hsum, hrest⟩
    have hexact := expandLoop_exact mem size destlimit hw 0 [] (Nat.zero_le _) (Nat.zero_le _) hsum hrest
    rw [hexact]
    refine ⟨rfl, ?_⟩
    rw [List.nil_append, List.length_flatMap, ← hsum]
    rfl

/-- The three forms with packets, at once. -/
theorem sound_iff_of_packets {c : TBitmapfileCompression} {w : ℕ} (hw : 0 < w) {mem : ℕ → UInt8} {size expandedsize : ℕ}
    (hc : expandData c expandedsize mem size =
      checkLimits size (destlimitOf c expandedsize) (expandLoop w mem size (destlimitOf c expandedsize) 0 []))
    (hp : piecesOf c mem size = pieces w (window mem 0 size)) (hl : LeftOver c mem size ↔ (piecesOf c mem size).2 ≠ [])
    (hlimit : ∀ n, w ∣ n → (n ≤ expandedsize ↔ n ≤ destlimitOf c expandedsize))
    (hwhole : WholeWords c size expandedsize ↔ destlimitOf c expandedsize = expandedsize) :
    Sound c mem size expandedsize ↔ WellPacked c mem size expandedsize := by
  have hdvd := expandLoop_dvd (w := w) mem size (destlimitOf c expandedsize) 0 [] (by simp)
  have hinside := expandLoop_inside (w := w) mem size (destlimitOf c expandedsize) 0 []
    (Nat.zero_le _) (Nat.zero_le _)
  rw [Nat.sub_zero, List.length_nil, Nat.sub_zero] at hinside
  have hends := expandLoop_ends_iff hw mem size (destlimitOf c expandedsize)
  have hlaid : LaidInto (LeftOver c mem size) (piecesOf c mem size).1 (destlimitOf c expandedsize) ↔
      (expandData c expandedsize mem size).aSrce ≤ size ∧ (expandData c expandedsize mem size).aDest.length ≤ expandedsize := by
    rw [hl, hp, hc, ← hinside]
    exact and_congr_right fun _ => (hlimit _ hdvd).symm
  have hret : (¬ ExpandsTo c mem size expandedsize → (expandData c expandedsize mem size).ret = .DecompressionError) ↔
      ((piecesOf c mem size).1.sum = destlimitOf c expandedsize → ¬ LeftOver c mem size →
        WholeWords c size expandedsize) := by
    rw [hc, checkLimits_ret, hends, hl, hwhole, ExpandsTo, hp]
    constructor
    · intro h hsum hrest
      by_contra hne
      exact h (fun hexact => hne (hsum.symm.trans hexact.1)) ⟨hsum, not_not.mp hrest⟩
    · rintro h hexact ⟨hsum, hrest⟩
      exact hexact ⟨hsum.trans (h hsum (not_not_intro hrest)), hrest⟩
  exact ⟨fun h => ⟨hlaid.mpr ⟨h.reads, h.writes⟩, hret.mp h.reports⟩,
    fun h => ⟨(hlaid.mp h.laid).1, (hlaid.mp h.laid).2, hret.mpr h.whole⟩⟩

theorem sound_twelve_iff {mem : ℕ → UInt8} {size expandedsize : ℕ} :
    Sound ETwelveBitRLECompression mem size expandedsize ↔ WellPacked ETwelveBitRLECompression mem size expandedsize := by
  have hs : 0 + 2 * (size / 2) = size / 2 * 2 := by omega
  have hsrce := expandTwelveLoop_srce mem (size / 2 * 2) (expandedsize / 2 * 2) [] hs
  have hinside := expandTwelveLoop_inside mem (size / 2 * 2) (expandedsize / 2 * 2) [] hs (Nat.zero_le _)
  have hends := expandTwelveLoop_ends mem (size / 2 * 2) (expandedsize / 2 * 2) [] hs (Nat.zero_le _)
  have hdvd := expandTwelveLoop_dvd mem (size / 2 * 2) (expandedsize / 2 * 2) [] hs (by simp)
  rw [List.length_nil, Nat.sub_zero] at hinside hends
  have hleft : (window mem (size / 2 * 2) (size % 2) = []) ↔ size % 2 = 0 := by
    rw [← List.length_eq_zero_iff, length_window]
  constructor
  · intro h
    refine ⟨hinside.mp ?_, fun hsum _ => ?_⟩
    · have hw : (expandTwelveLoop mem (size / 2 * 2) (expandedsize / 2 * 2) 0 []).2.length ≤ expandedsize := h.writes
      omega
    · by_contra hodd
      have hnot : ¬ ExpandsTo ETwelveBitRLECompression mem size expandedsize := by
        rintro ⟨hexact, hrest⟩
        have hword := hleft.mp hrest
        have hD : (piecesOf ETwelveBitRLECompression mem size).1.sum = expandedsize / 2 * 2 := hsum
        exact hodd ⟨hword, by omega⟩
      exact checkLimits_ret.mp (h.reports hnot) (hends.mpr hsum)
  · intro h
    have hlaid := hinside.mpr h.laid
    refine ⟨?_, ?_, fun hnot => checkLimits_ret.mpr fun hlimits => hnot ?_⟩
    · show (expandTwelveLoop mem (size / 2 * 2) (expandedsize / 2 * 2) 0 []).1 ≤ size
      omega
    · show (expandTwelveLoop mem (size / 2 * 2) (expandedsize / 2 * 2) 0 []).2.length ≤ expandedsize
      omega
    · have hsum := hends.mp hlimits
      obtain ⟨hword, heven⟩ := h.whole hsum id
      have hD : (piecesOf ETwelveBitRLECompression mem size).1.sum = expandedsize / 2 * 2 := hsum
      exact ⟨by omega, hleft.mpr hword⟩

/-- An expansion is sound for the data that are packed well, and for no others. -/
theorem expandData_sound_iff {iCompression : TBitmapfileCompression} (h : iCompression ≠ ENoBitmapCompression)
    (mem : ℕ → UInt8) (size expandedsize : ℕ) :
    Sound iCompression mem size expandedsize ↔ WellPacked iCompression mem size expandedsize := by
  cases iCompression with
  | ENoBitmapCompression => exact absurd rfl h
  | EByteRLECompression =>
    exact sound_iff_of_packets Nat.one_pos rfl rfl Iff.rfl (fun n _ => Iff.rfl) (iff_of_true trivial rfl)
  | ETwelveBitRLECompression => exact sound_twelve_iff
  | ESixteenBitRLECompression =>
    refine sound_iff_of_packets Nat.two_pos rfl rfl Iff.rfl (fun n hn => ?_) ?_
    · show n ≤ expandedsize ↔ n ≤ expandedsize / 2 * 2
      omega
    · show expandedsize % 2 = 0 ↔ expandedsize / 2 * 2 = expandedsize
      omega
  | ETwentyFourBitRLECompression =>
    exact sound_iff_of_packets (Nat.succ_pos 2) rfl rfl Iff.rfl (fun n _ => Iff.rfl) (iff_of_true trivial rfl)

/-- A run of two pixels, and a destination for two. -/
theorem expandData_sound_run : Sound EByteRLECompression (memoryOf [1, 7] fun _ => 0) 2 2 := by
  refine (expandData_sound_iff (by decide) _ 2 2).mpr ?_
  have hdata : piecesOf EByteRLECompression (memoryOf [1, 7] fun _ => 0) 2 = ([2], []) := by
    have hpackets := @packets_flatMap_bytes 1 [.run [7] 2] (by simp [Packet.Valid])
    have hwindow : window (memoryOf [1, 7] fun _ => 0) 0 2 = [Packet.run [7] 2].flatMap Packet.bytes := rfl
    simp only [piecesOf, pieces, hwindow, hpackets]
    rfl
  have hleft : ¬ LeftOver EByteRLECompression (memoryOf [1, 7] fun _ => 0) 2 := by
    simp [LeftOver, hdata]
  refine ⟨?_, fun _ _ => trivial⟩
  rw [hdata]
  exact Or.inr ⟨le_refl 2, Or.inl rfl⟩

/-- The byte in front of a run, without a pixel behind it. -/
theorem expandData_unsound_header : ¬ Sound EByteRLECompression (memoryOf [127] fun _ => 0) 1 1 := by
  intro h
  have htake : Packet.take 1 (window (memoryOf [127] fun _ => 0) 0 1) = none := by decide
  have hreads : (expandLoop 1 (memoryOf [127] fun _ => 0) 1 1 0 []).1 ≤ 1 := h.reads
  have hcut := @expandLoop_cut 1 _ 1 1 0 [] Nat.one_pos Nat.one_pos htake
  omega

end GnuPoc.Bmconv
