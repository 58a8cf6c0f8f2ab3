import GnuPoc.Elf.Dso
import GnuPoc.Lib.IndexChain

/-!
# GnuPoc.Elf.DsoHash — the hash section of an import library

The section is the number of buckets, the number of symbols, the buckets and the chains.  Symbol `i + 1` belongs to export
`i`; `writeDso` puts every named export in front of the chain of its bucket.
-/

namespace GnuPoc.Elf

open GnuPoc.Lib

/-! ### ELF hash tables -/

/-- The first symbol of bucket `h`. -/
def hashBucket (words : List UInt32) (h : ℕ) : Option ℕ := words[2 + h]?.map UInt32.toNat

/-- The symbol behind `y` in its chain, in a section of `nbucket` buckets. -/
def hashNext (words : List UInt32) (nbucket y : ℕ) : Option ℕ := words[2 + nbucket + y]?.map UInt32.toNat

/-- `words` is a hash table of `nchain` symbols, `symbolName` of which have a name. -/
structure IsElfHash (elf_hash : CString → ℕ) (symbolName : ℕ → Option CString) (nbucket nchain : ℕ)
    (words : List UInt32) : Prop where
  nbucket_pos : 0 < nbucket
  nbucket_eq : words[0]?.map UInt32.toNat = some nbucket
  nchain_eq : words[1]?.map UInt32.toNat = some nchain
  length_eq : words.length = 2 + nbucket + nchain
  chains : ∀ h < nbucket, ∃ first ys, hashBucket words h = some first ∧ Walk (hashNext words nbucket) first ys ∧
    ys.Nodup ∧ ∀ y, y ∈ ys ↔ ∃ n, symbolName y = some n ∧ elf_hash n % nbucket = h

/-! ### The buffers -/

/-- The loop of `SectionWriter::reserveSpace`; `bufferSize` is a `uint32_t`. -/
def reserveSpace : ℕ → UInt32 → UInt32 → Option UInt32
  | 0, _, _ => none
  | fuel + 1, needed, bufferSize =>
    if bufferSize < needed then reserveSpace fuel needed (bufferSize * 2) else some bufferSize

/-- A writer that elements are appended to, so many in each call: each call reserves space and writes behind the `used`
elements.  A write that does not fit the buffer has no result. -/
def appendAll (fuel elementSize : ℕ) : List ℕ → ℕ → UInt32 → Option UInt32
  | [], _, bufferSize => some bufferSize
  | elements :: counts, used, bufferSize => do
    let bufferSize ← reserveSpace fuel (UInt32.ofNat (elementSize * (used + elements))) bufferSize
    if bufferSize.toNat < elementSize * (used + elements) then none
    else appendAll fuel elementSize counts (used + elements) bufferSize

/-- The largest size that a buffer of 10240 bytes is doubled to before it is cut to 32 bits. -/
def maxBuffer : ℕ := 10240 * 2 ^ 18

theorem doubled_le (k : ℕ) : (UInt32.ofNat (10240 * 2 ^ k)).toNat ≤ maxBuffer := by
  rw [UInt32.toNat_ofNat', maxBuffer]
  by_cases hk : k < 21
  · have hsmall : ∀ k < 21, 10240 * 2 ^ k % 2 ^ 32 ≤ 10240 * 2 ^ 18 := by decide
    exact hsmall k hk
  · obtain ⟨j, rfl⟩ := Nat.exists_eq_add_of_le (not_lt.mp hk)
    have hcut : 10240 * 2 ^ (21 + j) = 2 ^ 32 * (5 * 2 ^ j) := by
      rw [Nat.pow_add]
      omega
    rw [hcut, Nat.mul_mod_right]
    exact Nat.zero_le _

theorem doubled_succ (k : ℕ) : UInt32.ofNat (10240 * 2 ^ k) * 2 = UInt32.ofNat (10240 * 2 ^ (k + 1)) := by
  rw [Nat.pow_succ, ← Nat.mul_assoc, UInt32.ofNat_mul (10240 * 2 ^ k)]
  rfl

/-- A buffer that is reserved has been doubled a number of times. -/
theorem reserveSpace_doubled {needed bufferSize : UInt32} {fuel k : ℕ}
    (h : reserveSpace fuel needed (UInt32.ofNat (10240 * 2 ^ k)) = some bufferSize) :
    ∃ k', bufferSize = UInt32.ofNat (10240 * 2 ^ k') := by
  induction fuel generalizing k with
  | zero => cases h
  | succ fuel ih =>
    rw [reserveSpace] at h
    split at h
    · rw [doubled_succ] at h
      exact ih h
    · exact ⟨k, (Option.some.inj h).symm⟩

/-- Doubling ends while the size is no more than the largest buffer. -/
theorem reserveSpace_ends {needed : UInt32} (h : needed.toNat ≤ maxBuffer) {k : ℕ} (hk : k ≤ 18) :
    ∃ k' ≤ 18, reserveSpace 19 needed (UInt32.ofNat (10240 * 2 ^ k)) = some (UInt32.ofNat (10240 * 2 ^ k')) ∧
      needed.toNat ≤ 10240 * 2 ^ k' := by
  have hrun (m : ℕ) : ∀ k, k + m = 18 → ∀ fuel, m < fuel → ∃ k' ≤ 18,
      reserveSpace fuel needed (UInt32.ofNat (10240 * 2 ^ k)) = some (UInt32.ofNat (10240 * 2 ^ k')) ∧
        needed.toNat ≤ 10240 * 2 ^ k' := by
    induction m with
    | zero =>
      rintro k rfl (_ | fuel) hfuel
      · exact absurd hfuel (Nat.not_lt_zero _)
      · exact ⟨18, le_rfl, if_neg (UInt32.not_lt.mpr (UInt32.le_iff_toNat_le.mpr h)), h⟩
    | succ m ih =>
      rintro k hk (_ | fuel) hfuel
      · exact absurd hfuel (Nat.not_lt_zero _)
      · rw [reserveSpace]
        split
        · rw [doubled_succ]
          exact ih (k + 1) (by omega) fuel (by omega)
        · next hge =>
          refine ⟨k, by omega, rfl, ?_⟩
          have hle := UInt32.le_iff_toNat_le.mp (UInt32.not_lt.mp hge)
          rwa [UInt32.toNat_ofNat', Nat.mod_eq_of_lt (lt_of_le_of_lt
            (Nat.mul_le_mul_left _ (Nat.pow_le_pow_right (by decide) (by omega : k ≤ 18))) (by decide))] at hle
  obtain ⟨m, hm⟩ := Nat.exists_eq_add_of_le hk
  exact hrun m k hm.symm 19 (by omega)

theorem le_of_appendAll {fuel elementSize : ℕ} {counts : List ℕ} {used k : ℕ}
    (hused : elementSize * used ≤ maxBuffer)
    (h : (appendAll fuel elementSize counts used (UInt32.ofNat (10240 * 2 ^ k))).isSome) :
    elementSize * (used + counts.sum) ≤ maxBuffer := by
  induction counts generalizing used k with
  | nil => simpa using hused
  | cons elements counts ih =>
    obtain ⟨bufferSize, h⟩ := Option.isSome_iff_exists.mp h
    obtain ⟨bufferSize', hreserve, h⟩ := Option.bind_eq_some_iff.mp h
    obtain ⟨k', rfl⟩ := reserveSpace_doubled hreserve
    split at h
    · cases h
    · next hfits =>
      have hrest := ih ((not_lt.mp hfits).trans (doubled_le k')) (Option.isSome_of_eq_some h)
      rwa [List.sum_cons, ← Nat.add_assoc]

theorem appendAll_completes {elementSize : ℕ} {counts : List ℕ} {used k : ℕ} (hk : k ≤ 18)
    (h : elementSize * (used + counts.sum) ≤ maxBuffer) :
    (appendAll 19 elementSize counts used (UInt32.ofNat (10240 * 2 ^ k))).isSome := by
  induction counts generalizing used k with
  | nil => rfl
  | cons elements counts ih =>
    rw [List.sum_cons, ← Nat.add_assoc] at h
    have hle : elementSize * (used + elements) ≤ maxBuffer := (Nat.mul_le_mul_left _ (Nat.le_add_right _ _)).trans h
    have hneeded : (UInt32.ofNat (elementSize * (used + elements))).toNat = elementSize * (used + elements) :=
      UInt32.toNat_ofNat_of_lt' (lt_of_le_of_lt hle (by decide))
    obtain ⟨k', hk', hreserve, hfits⟩ := reserveSpace_ends (hneeded.le.trans hle) hk
    have hbuffer : (UInt32.ofNat (10240 * 2 ^ k')).toNat = 10240 * 2 ^ k' :=
      UInt32.toNat_ofNat_of_lt' (lt_of_le_of_lt (Nat.mul_le_mul_left _ (Nat.pow_le_pow_right (by decide) hk')) (by decide))
    rw [appendAll, hreserve, Option.bind_eq_bind, Option.bind_some, if_neg (by rw [hbuffer]; omega)]
    exact ih hk' h

/-- The bytes of the string table without its filling. -/
def stringBytes (exports : List Export) (basename soname : CString) : List ℕ :=
  1 :: (exports.filterMap Export.name ++ [basename, soname]).map fun s => s.chars.length + 1

/-- What `writeDso` appends for its exports: the size of an element, and the elements of each call.  The other arrays have
a fixed length. -/
def dsoAppends (exports : List Export) (basename soname : CString) : List (ℕ × List ℕ) :=
  let ones (n : ℕ) := List.replicate n 1
  let strings := stringBytes exports basename soname
  [(4, ones (exports.length + 1)), (4, ones (2 + max (exports.length / 2) 1 + (exports.length + 1))),
    (16, ones (exports.length + 1)), (2, ones (exports.length + 1)),
    (1, strings ++ ones ((4 - strings.sum % 4) % 4))]

/-- Every array of `writeDso` is filled. -/
def WriteDsoReturns (exports : List Export) (basename soname : CString) : Prop :=
  ∃ fuel, ∀ array ∈ dsoAppends exports basename soname, (appendAll fuel array.1 array.2 0 10240).isSome

theorem writeDsoReturns_iff {exports : List Export} {basename soname : CString} :
    WriteDsoReturns exports basename soname ↔
      exports.length + 1 ≤ 167772160 ∧ (stringBytes exports basename soname).sum ≤ 2684354560 := by
  have hmax : maxBuffer = 2684354560 := rfl
  constructor
  · rintro ⟨fuel, h⟩
    simp only [dsoAppends, List.forall_mem_cons] at h
    obtain ⟨-, -, hsymtab, -, hstrtab, -⟩ := h
    have h₁ := le_of_appendAll (k := 0) (Nat.zero_le _) hsymtab
    have h₂ := le_of_appendAll (k := 0) (Nat.zero_le _) hstrtab
    simp only [List.sum_replicate_nat, List.sum_append, Nat.mul_one] at h₁ h₂
    omega
  · rintro ⟨hsymtab, hstrtab⟩
    refine ⟨19, fun array harray => appendAll_completes (k := 0) (Nat.zero_le _) ?_⟩
    simp only [dsoAppends, List.mem_cons, List.not_mem_nil, or_false] at harray
    rcases harray with rfl | rfl | rfl | rfl | rfl <;>
      simp only [List.sum_replicate_nat, List.sum_append, Nat.mul_one] <;> omega

/-- The bucket that an export is put in. -/
def bucketOf (elf_hash : CString → ℕ) (nbucket : ℕ) (e : Export) : Option ℕ := e.name.map fun n => elf_hash n % nbucket

/-- The symbols of bucket `h`, the last one first. -/
def visited (elf_hash : CString → ℕ) (nbucket h : ℕ) (es : List Export) : List ℕ :=
  ((es.zipIdx.filter fun exp => bucketOf elf_hash nbucket exp.1 = some h).map fun exp => exp.2 + 1).reverse

section
variable {elf_hash : CString → ℕ} {nbucket h : ℕ}

theorem visited_append_singleton (es : List Export) (e : Export) :
    visited elf_hash nbucket h (es ++ [e]) =
      if bucketOf elf_hash nbucket e = some h then (es.length + 1) :: visited elf_hash nbucket h es
      else visited elf_hash nbucket h es := by
  rw [visited, List.zipIdx_append, List.filter_append, List.map_append, List.reverse_append]
  by_cases hbucket : bucketOf elf_hash nbucket e = some h
  · simp [visited, hbucket]
  · simp [visited, hbucket]

theorem mem_visited {es : List Export} {y : ℕ} :
    y ∈ visited elf_hash nbucket h es ↔ ∃ i e, es[i]? = some e ∧ bucketOf elf_hash nbucket e = some h ∧ y = i + 1 := by
  simp only [visited, List.mem_reverse, List.mem_map, List.mem_filter, Prod.exists, List.mem_zipIdx_iff_getElem?,
    decide_eq_true_eq]
  constructor
  · rintro ⟨e, i, ⟨he, hbucket⟩, rfl⟩
    exact ⟨i, e, he, hbucket, rfl⟩
  · rintro ⟨i, e, he, hbucket, rfl⟩
    exact ⟨e, i, ⟨he, hbucket⟩, rfl⟩

theorem le_of_mem_visited {es : List Export} {y : ℕ} (hy : y ∈ visited elf_hash nbucket h es) : y ≤ es.length := by
  obtain ⟨i, e, he, -, rfl⟩ := mem_visited.mp hy
  have hlt := (List.getElem?_eq_some_iff.mp he).1
  omega

theorem nodup_visited (es : List Export) : (visited elf_hash nbucket h es).Nodup := by
  induction es using List.reverseRecOn with
  | nil => exact List.nodup_nil
  | append_singleton es e ih =>
    rw [visited_append_singleton]
    split
    · refine List.nodup_cons.mpr ⟨fun hmem => ?_, ih⟩
      have hle := le_of_mem_visited hmem
      omega
    · exact ih

end

/-! ### The invariant of the insertion loop -/

/-- The link that the chains hold behind `y`. -/
def chainNext (hashChain : List UInt32) (y : ℕ) : Option ℕ := hashChain[y]?.map UInt32.toNat

/-- The tables after the exports `es` of `n` were put in. -/
structure Hashed (elf_hash : CString → ℕ) (n : ℕ) (es : List Export) (t : DsoTables) : Prop where
  table_length : t.hashTable.length = max (n / 2) 1
  chain_length : t.hashChain.length = n + 1
  walks : ∀ h < max (n / 2) 1, ∃ first, t.hashTable[h]? = some first ∧
    Walk (chainNext t.hashChain) first.toNat (visited elf_hash (max (n / 2) 1) h es)

section
variable {epocVersion : ℕ} {elf_hash : CString → ℕ}

theorem hashed_emptyTables (n : ℕ) : Hashed elf_hash n [] (emptyTables n) where
  table_length := List.length_replicate
  chain_length := List.length_replicate
  walks h hh := ⟨0, by simp [emptyTables, hh], .nil⟩

/-- A new symbol is put at the front of the chain of its bucket. -/
theorem Hashed.writeSymbol {n : ℕ} (hn : n + 1 < 2 ^ 32) {es : List Export} {t : DsoTables}
    (ht : Hashed elf_hash n es t) (e : Export) (hroom : es.length < n) :
    Hashed elf_hash n (es ++ [e]) (writeSymbol epocVersion elf_hash t (e, es.length)) := by
  cases hname : e.name with
  | none =>
    have hbucket : ∀ h, bucketOf elf_hash (max (n / 2) 1) e ≠ some h := by simp [bucketOf, hname]
    refine ⟨?_, ?_, fun h hh => ?_⟩
    · simp only [Elf.writeSymbol, hname, ht.table_length]
    · simp only [Elf.writeSymbol, hname, ht.chain_length]
    · rw [visited_append_singleton, if_neg (hbucket h)]
      simpa only [Elf.writeSymbol, hname] using ht.walks h hh
  | some name =>
    have hbucket : bucketOf elf_hash (max (n / 2) 1) e = some (elf_hash name % max (n / 2) 1) := by
      rw [bucketOf, hname]
      rfl
    have hhash : elf_hash name % max (n / 2) 1 < max (n / 2) 1 := Nat.mod_lt _ (by omega)
    have hindex : (UInt32.ofNat (es.length + 1)).toNat = es.length + 1 := UInt32.toNat_ofNat_of_lt' (show _ < 2 ^ 32 by omega)
    obtain ⟨old, hold, hwalk⟩ := ht.walks _ hhash
    have hget : t.hashTable.getD (elf_hash name % max (n / 2) 1) 0 = old := by
      rw [List.getD_eq_getElem?_getD, hold]
      rfl
    -- the chains of the symbols so far are not touched
    have hsame : ∀ y ≤ es.length, chainNext (t.hashChain.set (es.length + 1) old) y = chainNext t.hashChain y := by
      intro y hy
      rw [chainNext, List.getElem?_set_ne (by omega), chainNext]
    refine ⟨?_, ?_, fun h hh => ?_⟩
    · simp only [Elf.writeSymbol, hname, List.length_set, ht.table_length]
    · simp only [Elf.writeSymbol, hname, List.length_set, ht.chain_length]
    · simp only [Elf.writeSymbol, hname, ht.table_length, hget]
      rw [visited_append_singleton, hbucket]
      by_cases heq : elf_hash name % max (n / 2) 1 = h
      · subst heq
        refine ⟨UInt32.ofNat (es.length + 1), ?_, ?_⟩
        · rw [List.getElem?_set_self (by rw [ht.table_length]; exact hhash)]
        · rw [if_pos rfl, hindex]
          refine .cons (Nat.succ_ne_zero _) ?_ (hwalk.congr fun y hy => hsame y (le_of_mem_visited hy))
          rw [chainNext, List.getElem?_set_self (by rw [ht.chain_length]; omega)]
          rfl
      · obtain ⟨first, hfirst, hother⟩ := ht.walks h hh
        rw [if_neg (by simpa using heq)]
        refine ⟨first, ?_, hother.congr fun y hy => hsame y (le_of_mem_visited hy)⟩
        rw [List.getElem?_set_ne heq, hfirst]

variable (epocVersion) (elf_hash)

theorem hashed_dsoTables {exports : List Export} (hn : exports.length + 1 < 2 ^ 32) :
    Hashed elf_hash exports.length exports (dsoTables epocVersion elf_hash exports) := by
  have hrun : ∀ es : List Export, es.length ≤ exports.length → Hashed elf_hash exports.length es
      (es.zipIdx.foldl (writeSymbol epocVersion elf_hash) (emptyTables exports.length)) := by
    intro es
    induction es using List.reverseRecOn with
    | nil => exact fun _ => hashed_emptyTables _
    | append_singleton es e ih =>
      intro hle
      rw [List.length_append, List.length_singleton] at hle
      have hz : [e].zipIdx (0 + es.length) = [(e, es.length)] := by simp
      rw [List.zipIdx_append, List.foldl_append, hz]
      exact (ih (by omega)).writeSymbol hn e (by omega)
  exact hrun exports le_rfl

/-! ### The section -/

/-- The name of a symbol; the null symbol and those of holes have none. -/
def exportName (exports : List Export) : ℕ → Option CString
  | 0 => none
  | i + 1 => exports[i]?.bind Export.name

theorem mem_visited_iff_name {nbucket h : ℕ} {exports : List Export} {y : ℕ} :
    y ∈ visited elf_hash nbucket h exports ↔ ∃ n, exportName exports y = some n ∧ elf_hash n % nbucket = h := by
  simp only [mem_visited, bucketOf, Option.map_eq_some_iff]
  constructor
  · rintro ⟨i, e, he, ⟨n, hname, hbucket⟩, rfl⟩
    exact ⟨n, by simp [exportName, he, hname], hbucket⟩
  · rintro ⟨n, hname, hbucket⟩
    cases y with
    | zero => simp [exportName] at hname
    | succ i =>
      obtain ⟨e, he, hen⟩ := Option.bind_eq_some_iff.mp hname
      exact ⟨i, e, he, ⟨n, hen, hbucket⟩, rfl⟩

/-- The words of the hash section. -/
def hashWords (exports : List Export) : List UInt32 :=
  UInt32.ofNat (dsoTables epocVersion elf_hash exports).hashTable.length :: UInt32.ofNat (exports.length + 1) ::
    ((dsoTables epocVersion elf_hash exports).hashTable ++ (dsoTables epocVersion elf_hash exports).hashChain)

theorem isElfHash_hashWords {exports : List Export} (hn : exports.length + 1 < 2 ^ 32) :
    IsElfHash elf_hash (exportName exports) (max (exports.length / 2) 1) (exports.length + 1)
      (hashWords epocVersion elf_hash exports) := by
  obtain ⟨htable, hchain, hwalks⟩ := hashed_dsoTables epocVersion elf_hash hn
  rw [hashWords]
  generalize (dsoTables epocVersion elf_hash exports).hashTable = table at *
  generalize (dsoTables epocVersion elf_hash exports).hashChain = chain at *
  have hbuckets : max (exports.length / 2) 1 < 2 ^ 32 := by omega
  have hnext : hashNext (UInt32.ofNat table.length :: UInt32.ofNat (exports.length + 1) :: (table ++ chain))
      (max (exports.length / 2) 1) = chainNext chain := by
    ext1 y
    rw [hashNext, chainNext, ← htable, Nat.add_assoc, Nat.add_comm 2]
    simp [List.getElem?_append_right]
  refine ⟨by omega, ?_, ?_, ?_, fun h hh => ?_⟩
  · simp [htable, UInt32.toNat_ofNat_of_lt' hbuckets]
  · simp only [List.getElem?_cons_succ, List.getElem?_cons_zero, Option.map_some, UInt32.toNat_ofNat_of_lt' hn]
  · simp only [List.length_cons, List.length_append, htable, hchain]
    omega
  · obtain ⟨first, hfirst, hwalk⟩ := hwalks h hh
    refine ⟨first.toNat, _, ?_, hnext ▸ hwalk, nodup_visited exports, fun y => mem_visited_iff_name elf_hash⟩
    have hlt : h < table.length := htable ▸ hh
    rw [hashBucket, Nat.add_comm 2]
    simp [List.getElem?_append_left hlt, hfirst]

/-- **Hash section.**  `writeDso` gets done, and then its hash section is a hash table of the named exports where a named
export is found in the chain of its bucket, at its symbol, exactly where the symbols and the strings fit the largest
buffer. -/
theorem writeDso_hash_iff (exports : List Export) (basename soname : CString) :
    (WriteDsoReturns exports basename soname ∧ ∃ words nbucket,
      (findSection (writeDso epocVersion elf_hash exports basename soname) .SHT_HASH).map Section.data =
          some (.ELF_T_WORD words) ∧
        IsElfHash elf_hash (exportName exports) nbucket (exports.length + 1) words ∧
        ∀ i e n, exports[i]? = some e → e.name = some n →
          (∃ first ys, hashBucket words (elf_hash n % nbucket) = some first ∧
            Walk (hashNext words nbucket) first ys ∧ i + 1 ∈ ys) ∧
          ∃ s, (dsoTables epocVersion elf_hash exports).symtab[i + 1]? = some s ∧
            s.st_value = UInt32.ofNat (4 * i) ∧
            elf_strptr (writeDso epocVersion elf_hash exports basename soname) 6 s.st_name = some n.chars) ↔
      exports.length + 1 ≤ 167772160 ∧ (stringBytes exports basename soname).sum ≤ 2684354560 := by
  rw [← writeDsoReturns_iff, and_iff_left_iff_imp, writeDsoReturns_iff]
  rintro ⟨hn, -⟩
  have hhash := @isElfHash_hashWords epocVersion elf_hash exports (by omega)
  refine ⟨hashWords epocVersion elf_hash exports, _, rfl, hhash, fun i e n he hname => ⟨?_, ?_⟩⟩
  · obtain ⟨first, ys, hfirst, hwalk, -, hmem⟩ := hhash.chains _ (Nat.mod_lt (elf_hash n) hhash.nbucket_pos)
    exact ⟨first, ys, hfirst, hwalk, (hmem (i + 1)).mpr ⟨n, by simp [exportName, he, hname], rfl⟩⟩
  · obtain ⟨s, hs, hvalue, hstr⟩ := strptr_symbol epocVersion elf_hash exports basename soname he
    refine ⟨s, hs, hvalue n hname, ?_⟩
    rw [hstr, Export.shownName, hname]

end

/-- One symbol too many: the size of the buffer is cut to 0 and stays there. -/
theorem writeDso_endless :
    ¬ WriteDsoReturns (List.replicate 167772160 ExportList.hole) ⟨[0x61], by decide⟩ ⟨[0x61], by decide⟩ := by
  rw [writeDsoReturns_iff, List.length_replicate]
  omega

end GnuPoc.Elf
