import CPlayground.Lib.CInt
import CPlayground.Lib.CString

namespace CPlayground.Relay.Collector

open CPlayground.CString CPlayground.CInt

/-!
# The ports of a collector

The collector joins a multicast group at each port that its first argument names.  `split` walks
over the argument with the index where a field begins, and skips fields without a character.
`std::stoi` throws when a field does not begin with a number, or when the number is not an `int`; an
exception ends the collector.

* `split_eq` — the loop converts the fields between the separators that are not empty, in order.
* `ports_round_trip` — numbers with commas between them are read back, modulo 256.
-/

section Split

variable {T : Type*} (op : List Char → Option T) (separator : Char)

/-- `if (j > i) res.push_back(op(std::string{&s[i], j - i}))`. -/
def push (s : List Char) (res : List T) (i j : Nat) : Option (List T) :=
  if i < j then (op ((s.drop i).take (j - i))).map fun x => res ++ [x] else some res

/-- The body of the loop; the state is `i` and `res`. -/
def splitBody (s : List Char) (state : Nat × List T) (j : Nat) : Option (Nat × List T) :=
  if s[j]? = some separator then (push op s state.2 state.1 j).map fun res => (j + 1, res)
  else some state

/-- `split`.  An exception of `op` is `none`. -/
def split (s : List Char) : Option (List T) :=
  ((List.range s.length).foldlM (splitBody op separator s) (0, [])).bind fun state =>
    push op s state.2 state.1 s.length

/-- The fields that are not empty, converted. -/
def fields (s : List Char) : Option (List T) :=
  ((s.splitOn separator).filter fun field => !field.isEmpty).mapM op

variable {op separator} {pre cur rest : List Char} {res : List T}

/-- A field is converted unless it is empty. -/
theorem push_eq : push op (pre ++ cur ++ rest) res pre.length (pre.length + cur.length)
    = (([cur].filter fun field => !field.isEmpty).mapM op).map (res ++ ·) := by
  cases cur with
  | nil => simp [push]
  | cons c cur =>
    rw [push, if_pos (by simp), List.append_assoc, List.drop_left, Nat.add_sub_cancel_left,
      List.take_left]
    cases h : op (c :: cur) <;> simp [h]

/-- The first field and the others. -/
theorem fields_append (hcur : separator ∉ cur) : fields op separator (cur ++ separator :: rest)
    = (([cur].filter fun field => !field.isEmpty).mapM op).bind fun xs =>
        (fields op separator rest).map (xs ++ ·) := by
  rw [fields, List.splitOn_append_cons_self, List.splitOn_eq_singleton hcur, List.filter_append,
    List.mapM_append]
  simp [fields, Option.map_eq_bind]

/-- **The loop** from a place in a field.  The induction is on what is left of the argument. -/
theorem split_from (hcur : separator ∉ cur) :
    ((List.range' (pre.length + cur.length) rest.length).foldlM
        (splitBody op separator (pre ++ cur ++ rest)) (pre.length, res)).bind (fun state =>
          push op (pre ++ cur ++ rest) state.2 state.1 (pre ++ cur ++ rest).length)
      = (fields op separator (cur ++ rest)).map (res ++ ·) := by
  -- by induction on the characters that are left; `cur` is the field that has begun
  induction rest generalizing pre cur res with
  | nil =>
    have hlength : (pre ++ cur ++ []).length = pre.length + cur.length := by simp
    rw [fields, List.append_nil cur, List.splitOn_eq_singleton hcur, hlength]
    exact push_eq
  | cons c rest ih =>
    have hc : (pre ++ cur ++ c :: rest)[pre.length + cur.length]? = some c := by
      rw [List.getElem?_append_right (by simp)]
      simp
    rw [List.length_cons, List.range'_succ, List.foldlM_cons, splitBody, hc]
    by_cases hsep : c = separator
    -- the field ends here, and may be empty or not convertible
    · subst hsep
      rw [if_pos rfl, push_eq, fields_append hcur]
      cases ([cur].filter fun field => !field.isEmpty).mapM op with
      | none => rfl
      | some xs =>
        have h := @ih (pre ++ cur ++ [c]) [] (res ++ xs) List.not_mem_nil
        simpa [Nat.add_assoc, Function.comp_def] using h
    · rw [if_neg (by simpa using hsep)]
      have h := @ih pre (cur ++ [c]) res (by simpa [hcur] using Ne.symm hsep)
      simpa [Nat.add_assoc] using h

/-- **`split`** converts the fields that are not empty, in their order, and fails if one of them
    cannot be converted. -/
theorem split_eq (op : List Char → Option T) (separator : Char) (s : List Char) :
    split op separator s = fields op separator s := by
  have h := @split_from T op separator [] [] s [] List.not_mem_nil
  simpa [split, List.range_eq_range'] using h

end Split

/-! ### The ports -/

/-- There is a digit after the white space and the sign. -/
def hasDigits (s : List Char) : Bool :=
  match s.dropWhile isSpace with
  | '-' :: r => r.head?.any Char.isDigit
  | '+' :: r => r.head?.any Char.isDigit
  | r        => r.head?.any Char.isDigit

/-- `std::stoi`. -/
def stoi (s : List Char) : Option Int :=
  if hasDigits s then checked (if (numeral s).1 then -(numeral s).2 else (numeral s).2) else none

/-- `(z & 0xffu) + PORT_BASE`; the number fits in a `short`. -/
def port (z : Int) : Nat := ((z % 2 ^ 32).toNat &&& 0xff) + 10000

/-- The ports that the first argument names. -/
def ports (argument : List Char) : Option (List Nat) :=
  split (fun field => (stoi field).map port) ',' argument

/-- A port is taken modulo 256. -/
theorem port_eq (z : Int) : port z = (z % 256).toNat + 10000 := by
  have hmask : ∀ n : Nat, n &&& 0xff = n % 256 := fun n => Nat.and_two_pow_sub_one_eq_mod n 8
  rw [port, hmask]
  omega

/-- A text that begins with a digit is a number for `stoi`, which throws only if there is no
    digit. -/
theorem hasDigits_of_isDigit {c : Char} {r : List Char} (hc : c.isDigit = true) :
    hasDigits (c :: r) = true := by
  have hval : 48 ≤ c.toNat ∧ c.toNat ≤ 57 := by
    simpa [Char.isDigit, UInt32.le_iff_toNat_le] using hc
  have hspace : isSpace c = false := by
    have hne : c ≠ ' ' := by
      rintro rfl
      cases hc
    simp [isSpace, hne]
    omega
  rw [hasDigits, List.dropWhile_cons_of_neg (by simp [hspace])]
  split
  case h_1 heq =>
    cases heq
    cases hc
  case h_2 heq =>
    cases heq
    cases hc
  case h_3 => exact hc

/-- A printed number is one, too. -/
theorem hasDigits_decimal (z : Int) : hasDigits (decimal z) = true := by
  obtain ⟨c, cs, hcons⟩ :=
    List.exists_cons_of_ne_nil (Nat.toDigits_ne_nil (n := z.natAbs) (b := 10))
  have hc : c.isDigit = true := isDigit_of_mem_toDigits (hcons ▸ List.mem_cons_self)
  rw [decimal, hcons]
  split
  · exact hc
  · exact hasDigits_of_isDigit hc

/-- A number that was printed is converted. -/
theorem stoi_decimal {z : Int} (h : IsInt z) : stoi (decimal z) = some z := by
  have hnumeral : numeral (decimal z) = (decide (z < 0), z.natAbs) := by
    simpa using @numeral_decimal z [] (by simp)
  have hvalue : (if decide (z < 0) = true then -(z.natAbs : Int) else (z.natAbs : Int)) = z := by
    split_ifs with hz <;> rw [decide_eq_true_eq] at hz <;> omega
  rw [stoi, if_pos (hasDigits_decimal z), hnumeral, hvalue, checked_of_isInt h]

/-- What a field of the argument says: a number, or nothing. -/
def field : Option Int → List Char
  | some z => decimal z
  | none   => []

/-- A field has no comma in it. -/
theorem not_mem_field (number : Option Int) : ',' ∉ field number := by
  cases number with
  | none => exact List.not_mem_nil
  | some z => exact not_mem_decimal (by decide) (by decide)

/-- The fields without a character do not matter, as `split` does not convert them. -/
theorem fields_field {numbers : List (Option Int)} (h : ∀ z ∈ numbers.filterMap id, IsInt z) :
    ((numbers.map field).filter fun text => !text.isEmpty).mapM (fun text => (stoi text).map port)
      = some ((numbers.filterMap id).map port) := by
  induction numbers with
  | nil => rfl
  | cons number numbers ih =>
    cases number with
    | none => simpa [field] using ih h
    | some z =>
      have hcons : (some z :: numbers).filterMap id = z :: numbers.filterMap id := rfl
      rw [hcons, List.forall_mem_cons] at h
      have hz := stoi_decimal h.1
      have hne : (decimal z).isEmpty = false := by
        cases hd : decimal z with
        | nil => simp [hd, stoi, hasDigits] at hz
        | cons c cs => rfl
      simp [field, hne, hz, ih h.2]

/-- **The ports are read back.**  An argument with numbers between commas, and with any number of
    fields that are empty, gives a port for each number, in order: its last eight bits, from 10000
    on. -/
theorem ports_round_trip {numbers : List (Option Int)} (h : ∀ z ∈ numbers.filterMap id, IsInt z) :
    ports ([','].intercalate (numbers.map field))
      = some ((numbers.filterMap id).map fun z => (z % 256).toNat + 10000) := by
  have hport : (fun z : Int => (z % 256).toNat + 10000) = port := funext fun z => (port_eq z).symm
  rw [ports, split_eq, fields, hport]
  cases numbers with
  | nil => rfl
  | cons number numbers =>
    have hcomma : ∀ text ∈ (number :: numbers).map field, ',' ∉ text :=
      List.forall_mem_map.mpr fun n _ => not_mem_field n
    rw [List.splitOn_intercalate ',' hcomma (List.cons_ne_nil _ _)]
    exact fields_field h

/-- Empty fields, a number beyond eight bits, and a negative one. -/
theorem ports_round_trip_wrapped : ports ",1,258,,-1".toList = some [10001, 10002, 10255] := by
  have htext : [','].intercalate ([none, some 1, some 258, none, some (-1)].map field)
      = ",1,258,,-1".toList := by decide +kernel
  rw [← htext]
  exact ports_round_trip (by decide)

end CPlayground.Relay.Collector
