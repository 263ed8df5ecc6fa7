import CPlayground.Codec.IdDecoder
import Mathlib.Data.Nat.Digits.Lemmas

namespace CPlayground.IdDecoder

open Memory

/-!
# The numbers in a process name

`id_decode` reads a number to the base 32 from its last character to its first one.  Here the table
is taken as one that has the position of every letter of the alphabet.

* `value` — the number that the characters stand for, the first one being the most significant.
* `decodeFrom_eq` — `id_decode` returns it; for up to six characters it is less than $2^{30}$.
* `value_injective` — characters of one length are determined by their number.
* `main_of_accepted` — so the two numbers that `main` prints determine the name.
-/

/-- The number that characters of the alphabet stand for. -/
def value (cs : List UInt8) : Nat := Nat.ofDigits 32 (cs.map table.idxOf).reverse

/-- The characters of a number: one to six of the alphabet. -/
structure IsId (cs : List UInt8) : Prop where
  ne_nil : cs ≠ []
  length_le : cs.length ≤ 6
  alphabet : ∀ c ∈ cs, c ∈ table

/-- The table has the position of every letter. -/
def HasPositions (t : Table) : Prop := ∀ c ∈ table, t.cell (index c) = (table.idxOf c : Nat)

/-- `check` returns zero for the argument. -/
def Accepted (t : Table) (p : List UInt8) : Prop := ∃ t' m, check t (cstr p) = some (t', m, 0)

/-- The name in an argument: twelve characters, of which the first one may be left out. -/
def name (p : List UInt8) : List UInt8 :=
  (if p.head? = some dollar then p else dollar :: p).take nameLen

variable {t : Table} {cs cs' p p' : List UInt8} {back back' : Mem}

/-! ### Positional numbers -/

/-- The positions in the table are digits to the base 32. -/
theorem digits_lt (hcs : ∀ c ∈ cs, c ∈ table) : ∀ d ∈ (cs.map table.idxOf).reverse, d < 32 := by
  intro d hd
  rw [List.mem_reverse, List.mem_map] at hd
  obtain ⟨c, hc, rfl⟩ := hd
  exact List.idxOf_lt_length_of_mem (hcs c hc)

/-- The last character is the least significant digit. -/
theorem value_concat (cs : List UInt8) (c : UInt8) :
    value (cs ++ [c]) = value cs * 32 + table.idxOf c := by
  rw [value, List.map_append, List.reverse_append, List.map_singleton, List.reverse_singleton,
    List.singleton_append, Nat.ofDigits_cons, ← value]
  omega

/-- Six characters make a number of thirty bits. -/
theorem value_lt (hlen : cs.length ≤ 6) (hcs : ∀ c ∈ cs, c ∈ table) : value cs < 2 ^ 30 := by
  have hlt := Nat.ofDigits_lt_base_pow_length (by decide : 1 < 32) (digits_lt hcs)
  rw [List.length_reverse, List.length_map] at hlt
  calc value cs < 32 ^ cs.length := hlt
    _ ≤ 32 ^ 6 := Nat.pow_le_pow_right (by decide) hlen

/-- A letter is determined by its position. -/
theorem getD_idxOf (hcs : ∀ c ∈ cs, c ∈ table) :
    (cs.map table.idxOf).map (table.getD · 0) = cs := by
  rw [List.map_map]
  refine (List.map_congr_left fun c hc => ?_).trans (List.map_id cs)
  have hlt := List.idxOf_lt_length_of_mem (hcs c hc)
  show table.getD (table.idxOf c) 0 = c
  rw [List.getD_eq_getElem?_getD, List.getElem?_eq_getElem hlt, Option.getD_some,
    List.getElem_idxOf hlt]

/-- **A number determines its characters**, if their count is known. -/
theorem value_injective (hcs : ∀ c ∈ cs, c ∈ table) (hcs' : ∀ c ∈ cs', c ∈ table)
    (hlen : cs.length = cs'.length) (h : value cs = value cs') : cs = cs' := by
  have hdigits := Nat.ofDigits_inj_of_len_eq (by decide : 1 < 32) (by simpa using hlen)
    (digits_lt hcs) (digits_lt hcs') h
  rw [← getD_idxOf hcs, List.reverse_injective hdigits, getD_idxOf hcs']

/-- The characters in front of a place and those behind it make two numbers. -/
theorem values_injective {k : Nat} (hcs : ∀ c ∈ cs, c ∈ table) (hcs' : ∀ c ∈ cs', c ∈ table)
    (hlen : cs.length = cs'.length) (htake : value (cs.take k) = value (cs'.take k))
    (hdrop : value (cs.drop k) = value (cs'.drop k)) : cs = cs' := by
  have hfront : cs.take k = cs'.take k :=
    value_injective (fun c hc => hcs c (List.mem_of_mem_take hc))
      (fun c hc => hcs' c (List.mem_of_mem_take hc))
      (by rw [List.length_take, List.length_take, hlen]) htake
  have hback : cs.drop k = cs'.drop k :=
    value_injective (fun c hc => hcs c (List.mem_of_mem_drop hc))
      (fun c hc => hcs' c (List.mem_of_mem_drop hc))
      (by rw [List.length_drop, List.length_drop, hlen]) hdrop
  rw [← List.take_append_drop k cs, hfront, hback, List.take_append_drop]

/-! ### `id_decode` -/

/-- **`id_decode`** returns the number that the characters stand for.  It goes from the last
    character to the first one, and keeps the weight of the next one in a variable. -/
theorem decodeFrom_eq (ht : HasPositions t) (hcs : IsId cs) (back : Mem) :
    ∃ t', decodeFrom t (cs.map some ++ back) (cs.length - 1) = some (t', (value cs : Int)) ∧
      t'.cell = t.cell := by
  obtain ⟨hne, hlen, hmem⟩ := hcs
  -- the recursion takes the last character off, which stays in the memory behind the others
  induction cs using List.reverseRecOn generalizing back with
  | nil => exact absurd rfl hne
  | append_singleton cs c ih =>
    have hc : t.cell (index c) = (table.idxOf c : Nat) :=
      ht c (hmem c (List.mem_append_right _ (List.mem_singleton_self c)))
    have hsplit : (cs ++ [c]).map some ++ back = cs.map some ++ some c :: back := by simp
    have hlast : (cs ++ [c]).length - 1 = cs.length := by simp
    rw [hsplit, hlast, value_concat]
    by_cases hnil : cs = []
    · subst hnil
      have hvalue : t.cell (index c) = ((value [] * 32 + table.idxOf c : Nat) : Int) :=
        hc.trans (by simp [value])
      exact ⟨(t.read (index c)).2, congrArg (fun v => some (_, v)) hvalue, rfl⟩
    · -- the characters in front of the last one are decoded first
      have hlt := value_lt hlen hmem
      rw [value_concat] at hlt
      rw [List.length_append, List.length_singleton] at hlen
      obtain ⟨t', hdecode, hcell⟩ := ih (some c :: back) hnil (by omega)
        fun c hc => hmem c (List.mem_append_left _ hc)
      have hload := load_append (cs.map some) c back
      have hmul : int ((value cs : Int) * 32) = some ((value cs : Int) * 32) := by
        rw [int, if_pos (by omega)]
      have hread : (t'.read (index c)).1 = (table.idxOf c : Nat) := (congrFun hcell _).trans hc
      have hadd : int ((value cs : Int) * 32 + (table.idxOf c : Nat))
          = some ((value cs : Int) * 32 + (table.idxOf c : Nat)) := by
        rw [int, if_pos (by omega)]
      rw [List.length_map] at hload
      obtain ⟨k, hk⟩ := Nat.exists_eq_succ_of_ne_zero (mt List.length_eq_zero_iff.mp hnil)
      refine ⟨(t'.read (index c)).2, ?_, hcell⟩
      rw [hk] at hload hdecode ⊢
      rw [Nat.succ_sub_one] at hdecode
      rw [decodeFrom, hdecode, Option.bind_some, hload, Option.bind_some, hmul, Option.bind_some,
        hread, hadd, Option.map_some]
      rfl

/-- **`id_decode` returns the number**, and leaves the table as it is. -/
theorem idDecode_eq (ht : HasPositions t) (hcs : IsId cs) (back : Mem) :
    ∃ t', idDecode t (cs.map some ++ back) cs.length = some (t', (value cs : Int)) ∧
      t'.cell = t.cell := by
  have hlen := hcs.length_le
  have hpos : cs.length ≠ 0 := mt List.length_eq_zero_iff.mp hcs.ne_nil
  have hpred : (cs.length + 2 ^ 32 - 1) % 2 ^ 32 = cs.length - 1 := by omega
  rw [idDecode, hpred]
  exact decodeFrom_eq ht hcs back

/-! ### The two numbers of a name -/

/-- The name that `main` decodes, whichever way it was given. -/
theorem name_of_suffix (h : Suffix p cs) : name p = dollar :: lastChar :: cs := by
  obtain ⟨hlen, rest, ⟨rfl, -⟩ | ⟨rfl, -⟩⟩ := h
  · have htake : (cs ++ rest).take 10 = cs := List.take_left' hlen
    rw [name, List.head?_cons, if_neg (by decide)]
    exact congrArg (dollar :: lastChar :: ·) htake
  · have htake : (cs ++ rest).take 10 = cs := List.take_left' hlen
    rw [name, List.head?_cons, if_pos rfl]
    exact congrArg (dollar :: lastChar :: ·) htake

/-- An accepted argument is a name with ten characters that are not refused: `check` looks at
    nothing else. -/
theorem suffix_of_accepted (h0 : 0 ∉ p) (h : Accepted t p) :
    ∃ cs, Suffix p cs ∧ accepts t.cell cs = true := by
  obtain ⟨t', m, hcheck⟩ := h
  have hint : NoOverflow p := by
    by_contra hint
    rw [check_of_overflow h0 hint] at hcheck
    simp only [reduceCtorEq] at hcheck
  by_cases hform : ∃ cs, Suffix p cs
  · obtain ⟨cs, hcs⟩ := hform
    obtain ⟨back, heq⟩ := check_eq h0 hcs t
    rw [heq, Option.some_inj, Prod.mk.injEq, Prod.mk.injEq] at hcheck
    refine ⟨cs, hcs, ?_⟩
    by_contra haccepts
    rw [if_neg haccepts] at hcheck
    exact Int.one_ne_zero hcheck.2.2
  · obtain ⟨m', heq⟩ := check_of_not h0 hint (not_exists.mp hform) t
    rw [heq, Option.some_inj, Prod.mk.injEq, Prod.mk.injEq] at hcheck
    exact absurd hcheck.2.2 Int.one_ne_zero

/-- A name whose characters are in the table is accepted. -/
theorem accepted_of_suffix (h0 : 0 ∉ p) (h : Suffix p cs) (haccepts : accepts t.cell cs = true) :
    Accepted t p := by
  obtain ⟨back, hcheck⟩ := check_eq h0 h t
  rw [if_pos haccepts] at hcheck
  exact ⟨_, _, hcheck⟩

/-- Only such a name is. -/
theorem mem_table_of_accepts (hother : ∀ c, c ∉ table → t.cell (index c) = -1)
    (h : accepts t.cell cs = true) : ∀ c ∈ cs, c ∈ table := by
  intro c hc
  by_contra hnot
  rw [accepts, List.all_eq_true] at h
  exact bne_iff_ne.mp (h c hc) (hother c hnot)

/-- **`main` on a name** prints the numbers of its first four characters and of the six others. -/
theorem main_of_suffix (ht : HasPositions t) (h0 : 0 ∉ p) (h : Suffix p cs)
    (haccepts : accepts t.cell cs = true) (hcs : ∀ c ∈ cs, c ∈ table) :
    (main t (some (cstr p))).map (·.2)
      = some (0, some ((value (cs.take 4) : Int), (value (cs.drop 4) : Int))) := by
  have hlen := h.1
  obtain ⟨back, hcheck⟩ := check_eq h0 h t
  rw [if_pos haccepts] at hcheck
  -- both numbers are read from the memory that `check` has left at `*pp`
  generalize hm : [some dollar, some lastChar] ++ (cs.map some ++ back) = m at hcheck
  have hdrop : m.drop 2 = (cs.take 4).map some ++ ((cs.drop 4).map some ++ back) := by
    rw [← List.append_assoc, ← List.map_append, List.take_append_drop, ← hm]
    rfl
  have hdrop' : m.drop (2 + 4) = (cs.drop 4).map some ++ back := by
    rw [← hm, ← List.drop_drop]
    exact drop_map_some (by omega) back
  have htake : (cs.take 4).length = 4 := List.length_take_of_le (by omega)
  have hrest : (cs.drop 4).length = 6 := by rw [List.length_drop, hlen]
  have hnid : IsId (cs.take 4) :=
    ⟨List.ne_nil_of_length_pos (by omega), by omega, fun c hc => hcs c (List.mem_of_mem_take hc)⟩
  have hpid : IsId (cs.drop 4) :=
    ⟨List.ne_nil_of_length_pos (by omega), by omega, fun c hc => hcs c (List.mem_of_mem_drop hc)⟩
  obtain ⟨t₁, hdecode, hcell₁⟩ :=
    idDecode_eq (t := { t with used := t.used ++ (scanned t.cell cs).map index }) ht hnid
      ((cs.drop 4).map some ++ back)
  have ht₁ : HasPositions t₁ := fun c hc => (congrFun hcell₁ _).trans (ht c hc)
  obtain ⟨t₂, hdecode', -⟩ := idDecode_eq ht₁ hpid back
  rw [htake, ← hdrop] at hdecode
  rw [hrest, ← hdrop'] at hdecode'
  simp only [main, hcheck, Option.bind_some, hdecode, hdecode', Option.map_some, ne_eq,
    not_true_eq_false, if_false]

/-- **The numbers of a name.**  With the position of every letter in the table, `id_decode` returns
    the number that the characters stand for, without an overflow, and tells characters of one
    length apart.  If all other characters are refused, the two numbers that `main` prints tell the
    accepted names apart. -/
theorem base32_decoding (ht : HasPositions t) :
    (∀ cs back, IsId cs → value cs < 2 ^ 31 ∧
      (idDecode t (cs.map some ++ back) cs.length).map (·.2) = some (value cs : Int)) ∧
    (∀ cs cs' back back', IsId cs → IsId cs' → cs.length = cs'.length →
      (idDecode t (cs.map some ++ back) cs.length).map (·.2)
        = (idDecode t (cs'.map some ++ back') cs'.length).map (·.2) → cs = cs') ∧
    ((∀ c, c ∉ table → t.cell (index c) = -1) → ∀ p p', 0 ∉ p → 0 ∉ p' →
      Accepted t p → Accepted t p' → ∃ v v' : Int × Int,
        (main t (some (cstr p))).map (·.2) = some (0, some v) ∧
        (main t (some (cstr p'))).map (·.2) = some (0, some v') ∧
        (v = v' ↔ name p = name p')) := by
  have hvalue : ∀ cs back, IsId cs →
      (idDecode t (cs.map some ++ back) cs.length).map (·.2) = some (value cs : Int) := by
    intro cs back hcs
    obtain ⟨t', hdecode, -⟩ := idDecode_eq ht hcs back
    rw [hdecode, Option.map_some]
  -- no overflow, two ids of one length with the same value, and two names with the same pair of ids
  refine ⟨fun cs back hcs => ⟨?_, hvalue cs back hcs⟩, ?_, ?_⟩
  · have := value_lt hcs.length_le hcs.alphabet
    omega
  · intro cs cs' back back' hcs hcs' hlen heq
    rw [hvalue cs back hcs, hvalue cs' back' hcs', Option.some_inj, Int.natCast_inj] at heq
    exact value_injective hcs.alphabet hcs'.alphabet hlen heq
  · intro hother p p' h0 h0' hp hp'
    obtain ⟨cs, hcs, haccepts⟩ := suffix_of_accepted h0 hp
    obtain ⟨cs', hcs', haccepts'⟩ := suffix_of_accepted h0' hp'
    have hmem := mem_table_of_accepts hother haccepts
    have hmem' := mem_table_of_accepts hother haccepts'
    refine ⟨_, _, main_of_suffix ht h0 hcs haccepts hmem,
      main_of_suffix ht h0' hcs' haccepts' hmem', ?_⟩
    rw [name_of_suffix hcs, name_of_suffix hcs']
    constructor
    · intro hv
      rw [Prod.mk.injEq, Int.natCast_inj, Int.natCast_inj] at hv
      rw [values_injective hmem hmem' (hcs.1.trans hcs'.1.symm) hv.1 hv.2]
    · intro hname
      rw [List.cons.injEq, List.cons.injEq] at hname
      rw [hname.2.2]

/-- Where the memory around the table is negative, it is so for every other character. -/
theorem cell_of_not_mem_table {c : UInt8} (hc : c ∉ table) :
    (reversed fun _ => -1).cell (index c) = -1 := by
  have hnot : index c ∉ table.map index := by
    rw [List.mem_map]
    rintro ⟨c', hc', hidx⟩
    exact hc (index_injective hidx ▸ hc')
  rw [reversed, reverseTable, cell_setLetters_of_not_mem hnot, cell_fill]
  exact ite_self (-1)

/-- The name `$Z0000000000`, without its `$`. -/
def nameZero : List UInt8 := lastChar :: List.replicate 10 0x30

/-- The name `$Z0000000001`. -/
def nameOne : List UInt8 := dollar :: lastChar :: (List.replicate 9 0x30 ++ [0x31])

/-- The two numbers of `main` differ for names that differ. -/
theorem base32_decoding_names :
    (idDecode (reversed fun _ => -1) [some 0x31, some 0x30] 2).map (·.2) = some 32 ∧
    ∃ v v', (main (reversed fun _ => -1) (some (cstr nameZero))).map (·.2) = some (0, some v) ∧
      (main (reversed fun _ => -1) (some (cstr nameOne))).map (·.2) = some (0, some v') ∧
      v ≠ v' := by
  obtain ⟨hvalue, -, hnames⟩ := base32_decoding (t := reversed fun _ => -1) fun c hc =>
    cell_of_mem_table _ hc
  have hid : IsId [0x31, 0x30] := ⟨by decide, by decide, by
    simp only [List.forall_mem_cons, List.not_mem_nil, false_implies, implies_true, and_true]
    decide⟩
  have hzero : Accepted (reversed fun _ => -1) nameZero := by
    have hsuffix : Suffix nameZero (List.replicate 10 0x30) := ⟨rfl, [], .inl ⟨rfl, by decide⟩⟩
    exact accepted_of_suffix (by decide) hsuffix (by decide +kernel)
  have hone : Accepted (reversed fun _ => -1) nameOne := by
    have hsuffix : Suffix nameOne (List.replicate 9 0x30 ++ [0x31]) :=
      ⟨rfl, [], .inr ⟨rfl, by decide⟩⟩
    exact accepted_of_suffix (by decide) hsuffix (by decide +kernel)
  obtain ⟨v, v', hv, hv', hiff⟩ := hnames (fun c hc => cell_of_not_mem_table hc) nameZero nameOne
    (by decide) (by decide) hzero hone
  exact ⟨(hvalue _ [] hid).2, v, v', hv, hv', mt hiff.mp (by decide)⟩

end CPlayground.IdDecoder
