import CPlayground.Lib.CString
import CPlayground.Lib.Loop

namespace CPlayground.Relay

open Loop CString

/-!
# `parseTopic`

The function collects the values of the query of a URI, which it scans with
`sscanf(&uri[i], "%[^=]=%[^&]%n", k, v, &n)`.  It does not look at what `sscanf` returns: if nothing
is assigned to `v` and `n`, the value of the round before is taken again, and the next round is one
character further on.

* `ParseTopic.sscanf_eq`, `ParseTopic.sscanf_eq_some` — what the scan accepts.
* `ParseTopic.rounds_pairs` — the loop collects the values of a sequence of pairs.
* `ParseTopic.rounds_count` — it never has less rounds than there are segments with a `=`.
* `well_formed_query`, `malformed_segments` — so a round in which the scan fails is one too many.
-/

namespace ParseTopic

/-- The end of a C string, which may be inside of a `std::string`. -/
def nul : Char := Char.ofNat 0

/-- What `%[^stop]` takes. -/
def scanSet (stop : Char) (s : List Char) : List Char := s.takeWhile fun c => c ≠ stop ∧ c ≠ nul

/-- `sscanf(s, "%[^=]=%[^&]%n", k, v, &n)`: `n` and `v`, if they are assigned.  Both buffers have 16
    bytes.  `k` is assigned whenever `v` is, and nothing but the log has it. -/
def sscanf (s : List Char) : Option (Option (Nat × List Char)) :=
  let k := scanSet '=' s
  -- an empty match is a failure
  if k = [] then some none
  else if 16 ≤ k.length then none
  else match s.drop k.length with
    | [] => some none
    | c :: s =>
      let v := scanSet '&' s
      if c ≠ '=' ∨ v = [] then some none
      else if 16 ≤ v.length then none
      else some (some (k.length + 1 + v.length, v))

/-- The variables of the loop: the text behind position `i`, the buffer `v` if it has been written,
    and the result. -/
structure State where
  rest : List Char
  v : Option (List Char) := none
  res : List (List Char) := []

/-- The condition `++i < uri.size()`. -/
def more (s : State) : Bool := s.rest ≠ []

/-- The body of the loop.  Without an assignment `n` is zero. -/
def round (s : State) : Option State :=
  (sscanf s.rest).bind fun
    | some (n, v) => some { rest := s.rest.drop (n + 1), v := some v, res := s.res ++ [v] }
    -- the value of an earlier round is still in the buffer
    | none        => s.v.map fun v => { s with rest := s.rest.drop 1, res := s.res ++ [v] }

/-- `parseTopic`.  Every round passes a character at least. -/
def parseTopic (uri : List Char) : Option (List (List Char)) :=
  match uri.dropWhile (· ≠ '?') with
  | []        => some []
  | _ :: rest => (run more round rest.length { rest }).map State.res

/-! ### The scan -/

/-- A key and a value that the scan takes: neither is empty or longer than its buffer, and neither
    has the character that ends its scan set. -/
structure Pair (k v : List Char) : Prop where
  key_ne_nil : k ≠ []
  key_length : k.length ≤ 15
  key_equals : '=' ∉ k
  key_nul : nul ∉ k
  value_ne_nil : v ≠ []
  value_length : v.length ≤ 15
  value_ampersand : '&' ∉ v
  value_nul : nul ∉ v

variable {k v t r : List Char} {n : Nat}

/-- A scan set takes everything up to the first character that stops it. -/
theorem scanSet_append {stop : Char} {s : List Char} (hstop : stop ∉ s) (hnul : nul ∉ s)
    (hr : ∀ c ∈ r.head?, c = stop ∨ c = nul) : scanSet stop (s ++ r) = s := by
  have hs : ∀ c ∈ s, decide (c ≠ stop ∧ c ≠ nul) = true := by
    intro c hc
    rw [decide_eq_true_iff]
    exact ⟨fun h => hstop (h ▸ hc), fun h => hnul (h ▸ hc)⟩
  rw [scanSet, List.takeWhile_append_of_pos hs]
  cases r with
  | nil => simp
  | cons c r =>
    have hc := hr c rfl
    rw [List.takeWhile_cons_of_neg (by simp; grind), List.append_nil]

/-- What is taken, and what stands behind it. -/
theorem scanSet_spec (stop : Char) (s : List Char) :
    ∃ r, s = scanSet stop s ++ r ∧ stop ∉ scanSet stop s ∧ nul ∉ scanSet stop s ∧
      ∀ c ∈ r.head?, c = stop ∨ c = nul := by
  refine ⟨s.dropWhile fun c => c ≠ stop ∧ c ≠ nul, List.takeWhile_append_dropWhile.symm, ?_, ?_, ?_⟩
  · intro h
    simpa using List.mem_takeWhile_imp h
  · intro h
    simpa using List.mem_takeWhile_imp h
  · intro c hc
    have hhead := List.head?_dropWhile_not (fun c => decide (c ≠ stop ∧ c ≠ nul)) s
    rw [Option.mem_def.mp hc] at hhead
    have hnot := decide_eq_false_iff_not.mp hhead
    grind

/-- **The scan** of a pair, up to an ampersand or the end of the string: both are assigned, and `n`
    is the number of their characters with the `=`. -/
theorem sscanf_eq (h : Pair k v) (hr : ∀ c ∈ r.head?, c = '&' ∨ c = nul) :
    sscanf (k ++ '=' :: (v ++ r)) = some (some (k.length + 1 + v.length, v)) := by
  have hk := scanSet_append (r := '=' :: (v ++ r)) h.key_equals h.key_nul (by simp)
  have hv := scanSet_append h.value_ampersand h.value_nul hr
  have hklen := h.key_length
  have hvlen := h.value_length
  unfold sscanf
  simp only [hk, h.key_ne_nil, if_false, List.drop_left, hv, h.value_ne_nil]
  rw [if_neg (by omega), if_neg (by simp), if_neg (by omega)]

/-- **What the scan accepts**: a key and a value that are not empty, up to a `&` or to the end, and
    the number of the characters that it has taken. -/
theorem sscanf_eq_some (h : sscanf t = some (some (n, v))) :
    ∃ k r, t = k ++ '=' :: (v ++ r) ∧ Pair k v ∧ (∀ c ∈ r.head?, c = '&' ∨ c = nul) ∧
      n = k.length + 1 + v.length := by
  -- the key is what stands in front of the `=`; it must not be empty or too long for its buffer
  obtain ⟨s, hs, hequals, hknul, -⟩ := scanSet_spec '=' t
  generalize hk : scanSet '=' t = k at *
  subst hs
  unfold sscanf at h
  simp only [hk, List.drop_left] at h
  by_cases hne : k = []
  · rw [if_pos hne] at h
    cases h
  by_cases hlen : 16 ≤ k.length
  · rw [if_neg hne, if_pos hlen] at h
    cases h
  rw [if_neg hne, if_neg hlen] at h
  cases s with
  | nil => cases h
  | cons c s =>
    -- and the value what stands in front of the `&`
    obtain ⟨r, hr, hamp, hvnul, hend⟩ := scanSet_spec '&' s
    simp only at h
    split_ifs at h with hc hvlen
    · cases h
    · cases h
      push Not at hc
      refine ⟨k, r, by rw [← hr, hc.1], ?_, hend, rfl⟩
      exact ⟨hne, by omega, hequals, hknul, hc.2, by omega, hamp, hvnul⟩

/-! ### Sequences of pairs -/

/-- A text of pairs that are separated by ampersands; there may be another one at the end. -/
inductive Pairs : List Char → List (List Char × List Char) → Prop
  | nil : Pairs [] []
  | last {k v : List Char} (h : Pair k v) : Pairs (k ++ '=' :: v) [(k, v)]
  | cons {k v t : List Char} {ps : List (List Char × List Char)} (h : Pair k v) (ht : Pairs t ps) :
      Pairs (k ++ '=' :: (v ++ '&' :: t)) ((k, v) :: ps)

variable {ps : List (List Char × List Char)} {fuel : Nat} {s : State}

/-- A round that takes a pair. -/
theorem round_pair (h : Pair k v) (hr : ∀ c ∈ r.head?, c = '&' ∨ c = nul)
    (hs : s.rest = k ++ '=' :: (v ++ r)) :
    round s = some { rest := r.tail, v := some v, res := s.res ++ [v] } := by
  have hdrop : (k ++ '=' :: (v ++ r)).drop (k.length + 1 + v.length + 1) = r.tail := by
    rw [Nat.add_assoc, Nat.add_assoc, ← List.drop_drop, List.drop_left, Nat.add_comm,
      List.drop_succ_cons, ← List.drop_drop, List.drop_left, List.drop_one]
  rw [round, hs, sscanf_eq h hr]
  simp only [Option.bind_some, hdrop]

/-- **The loop** collects the values of a sequence of pairs, with one round for each of them. -/
theorem rounds_pairs (h : Pairs t ps) (hs : s.rest = t) (hfuel : t.length ≤ fuel) :
    ∃ v, run more round fuel s = some { rest := [], v, res := s.res ++ ps.map Prod.snd } := by
  induction h generalizing s fuel with
  | nil => exact ⟨s.v, by rw [run_of_not (by simp [more, hs])]; simp [← hs]⟩
  | @last k v hpair =>
    obtain ⟨fuel, rfl⟩ : ∃ n, fuel = n + 1 := ⟨fuel - 1, by simp at hfuel; omega⟩
    have hround := round_pair (s := s) (r := []) hpair (by simp) (by rw [hs, List.append_nil])
    rw [run_succ (by simp [more, hs]) hround, run_of_not rfl]
    exact ⟨some v, rfl⟩
  | @cons k v t ps hpair ht ih =>
    obtain ⟨fuel, rfl⟩ : ∃ n, fuel = n + 1 := ⟨fuel - 1, by simp at hfuel; omega⟩
    have hround := round_pair (s := s) (r := '&' :: t) hpair (by simp) hs
    rw [run_succ (by simp [more, hs]) hround]
    have hlen : t.length ≤ fuel := by
      simp at hfuel
      omega
    obtain ⟨w, hrun⟩ := ih (s := { rest := t, v := some v, res := s.res ++ [v] }) rfl hlen
    exact ⟨w, by rw [List.tail_cons, hrun, List.map_cons, List.append_assoc]; rfl⟩

/-! ### Segments -/

/-- The value of a segment, if it has a key and a value that are not empty. -/
def segmentValue (s : List Char) : Option (List Char) :=
  let v := (s.dropWhile (· ≠ '=')).tail
  if s.takeWhile (· ≠ '=') ≠ [] ∧ v ≠ [] then some v else none

/-- The values of the segments of a query that are not malformed. -/
def values (q : List Char) : List (List Char) := (q.splitOn '&').filterMap segmentValue

/-- How many segments have a `=`. -/
def assignments (q : List Char) : Nat := (q.splitOn '&').countP fun s => '=' ∈ s

/-- The segments with a `=` are counted on both sides of a `&`. -/
theorem assignments_append (a b : List Char) :
    assignments (a ++ '&' :: b) = assignments a + assignments b := by
  rw [assignments, List.splitOn_append_cons_self, List.countP_append]
  rfl

/-- A character that is not a `=` does not matter at the beginning of a segment. -/
theorem assignments_cons {c : Char} (hc : c ≠ '=') (t : List Char) :
    assignments (c :: t) = assignments t := by
  obtain ⟨s, ss, hsplit⟩ := List.exists_cons_of_ne_nil (List.splitOn_ne_nil '&' t)
  rw [assignments, assignments, List.splitOn_cons_eq_if_modifyHead]
  split
  · simp
  · simp [hsplit, List.modifyHead, List.countP_cons, Ne.symm hc]

/-- A key has no `=` in it. -/
theorem assignments_key (hk : '=' ∉ k) (t : List Char) : assignments (k ++ t) = assignments t := by
  induction k with
  | nil => rfl
  | cons c k ih =>
    rw [List.mem_cons, not_or] at hk
    rw [List.cons_append, assignments_cons (Ne.symm hk.1), ih hk.2]

/-- What follows the first `=` of a segment does not count again. -/
theorem assignments_value (hv : '&' ∉ v) : assignments ('=' :: v) = 1 := by
  rw [assignments, List.splitOn_eq_singleton (by simpa using hv)]
  simp

/-- The value of a segment, if neither the key nor the value is empty. -/
theorem segmentValue_eq (hk : '=' ∉ k) (v : List Char) :
    segmentValue (k ++ '=' :: v) = if k = [] ∨ v = [] then none else some v := by
  simp only [segmentValue, takeWhile_ne_append hk, dropWhile_ne_append hk, List.tail_cons]
  by_cases hk : k = [] <;> by_cases hv : v = [] <;> simp [hk, hv]

/-- A segment that has a value has a `=`. -/
theorem mem_of_segmentValue {t v : List Char} (h : segmentValue t = some v) : '=' ∈ t := by
  by_contra hnot
  have hdrop : t.dropWhile (· ≠ '=') = [] := by
    rw [List.dropWhile_eq_nil_iff]
    exact forall_mem_ne hnot
  rw [segmentValue, hdrop, List.tail_nil, if_neg fun h => h.2 rfl] at h
  cases h

/-- There are at most as many values as segments with a `=`. -/
theorem length_values_le (q : List Char) : (values q).length ≤ assignments q := by
  rw [values, List.length_filterMap_eq_countP, assignments]
  refine List.countP_mono_left fun t _ h => ?_
  obtain ⟨v, hv⟩ := Option.isSome_iff_exists.mp h
  exact decide_eq_true (mem_of_segmentValue hv)

/-- The values stand in the order of the segments. -/
theorem values_append (a b : List Char) : values (a ++ '&' :: b) = values a ++ values b := by
  rw [values, List.splitOn_append_cons_self, List.filterMap_append]
  rfl

/-- Segments without a `=` have no value. -/
theorem values_bare (hk : '=' ∉ k) : values k = [] := by
  have hle := length_values_le k
  have hzero := assignments_key hk []
  rw [List.append_nil] at hzero
  rw [hzero] at hle
  exact List.length_eq_zero_iff.mp (Nat.le_zero.mp hle)

/-- `b` is what the ampersand behind the first segment `a` of `x` separates from it. -/
def FirstSegment (x a b : List Char) : Prop := '&' ∉ a ∧ (x = a ∧ b = [] ∨ x = a ++ '&' :: b)

/-- Every text has a first segment, which is all of it if there is no `&`. -/
theorem exists_firstSegment (x : List Char) : ∃ a b, FirstSegment x a b := by
  by_cases h : '&' ∈ x
  · obtain ⟨a, b, hx, ha⟩ := List.eq_append_cons_of_mem h
    exact ⟨a, b, ha, .inr hx⟩
  · exact ⟨x, [], h, .inl ⟨rfl, rfl⟩⟩

variable {x a b : List Char}

/-- A key with a `=` behind it makes one segment, up to the next `&`. -/
theorem assignments_group (hk : '=' ∉ k) (h : FirstSegment x a b) :
    assignments (k ++ '=' :: x) = assignments b + 1 := by
  rw [assignments_key hk]
  obtain ⟨ha, ⟨rfl, rfl⟩ | rfl⟩ := h
  · rw [assignments_value ha]
    rfl
  · rw [← List.cons_append, assignments_append, assignments_value ha, Nat.add_comm]

/-- Without an ampersand in the key there is one segment up to the end of the value. -/
theorem values_group_single (hk : '=' ∉ k) (hamp : '&' ∉ k) (h : FirstSegment x a b) :
    values (k ++ '=' :: x) = (if k = [] ∨ a = [] then [] else [a]) ++ values b := by
  have hsegment : values (k ++ '=' :: a) = if k = [] ∨ a = [] then [] else [a] := by
    rw [values, List.splitOn_eq_singleton (by simp [hamp, h.1]), List.filterMap_cons,
      segmentValue_eq hk]
    by_cases hne : k = [] ∨ a = []
    · simp [hne]
    · simp [hne]
  obtain ⟨-, ⟨rfl, rfl⟩ | rfl⟩ := h
  · rw [hsegment]
    simp [values, segmentValue]
  · rw [← List.cons_append, ← List.append_assoc, values_append, hsegment]

/-- The value of the first `=` belongs to a segment that begins behind the last ampersand before. -/
theorem values_group (hk : '=' ∉ k) (h : FirstSegment x a b) :
    values (k ++ '=' :: x)
      = (if k = [] ∨ k.getLast? = some '&' ∨ a = [] then [] else [a]) ++ values b := by
  by_cases hamp : '&' ∈ k
  · -- only what is behind the last ampersand of the key is in the segment of the value
    obtain ⟨front, k', rfl, hamp'⟩ := exists_append_cons hamp
    have hequals : '=' ∉ front ∧ '=' ∉ k' := by simpa using hk
    have hne : front ++ '&' :: k' ≠ [] := by simp
    rw [List.append_assoc, List.cons_append, values_append, values_bare hequals.1,
      List.nil_append, values_group_single hequals.2 hamp' h]
    simp only [hne, false_or, getLast?_append_cons_eq hamp']
  · have hget : k.getLast? ≠ some '&' := fun hc => hamp (List.mem_of_getLast? hc)
    rw [values_group_single hk hamp h]
    simp only [hget, false_or]

/-- The segments behind the first one are not more than all of them. -/
theorem assignments_le_of_firstSegment (h : FirstSegment x a b) :
    assignments b ≤ assignments x := by
  obtain ⟨-, ⟨-, rfl⟩ | rfl⟩ := h
  · exact Nat.zero_le _
  · rw [assignments_append]
    omega

/-! ### Counting the rounds -/

/-- What a round does: it takes a pair, or it takes the last value again. -/
theorem round_eq_some {s' : State} (h : round s = some s') :
    (∃ k v r, s.rest = k ++ '=' :: (v ++ r) ∧ Pair k v ∧ (∀ c ∈ r.head?, c = '&' ∨ c = nul) ∧
      s' = { rest := r.tail, v := some v, res := s.res ++ [v] }) ∨
    ∃ v, s' = { s with rest := s.rest.drop 1, res := s.res ++ [v] } := by
  have hround := h
  rw [round, Option.bind_eq_some_iff] at h
  obtain ⟨q, hscan, h⟩ := h
  cases q with
  | none =>
    obtain ⟨v, -, rfl⟩ := Option.map_eq_some_iff.mp h
    exact .inr ⟨v, rfl⟩
  | some q =>
    obtain ⟨k, r, ht, hpair, hr, -⟩ := sscanf_eq_some hscan
    rw [round_pair hpair hr ht, Option.some_inj] at hround
    exact .inl ⟨k, q.2, r, ht, hpair, hr, hround.symm⟩

/-- A round passes at most one of the segments with a `=`: a value ends at the first ampersand. -/
theorem assignments_pair (h : Pair k v) (hr : ∀ c ∈ r.head?, c = '&' ∨ c = nul) :
    assignments (k ++ '=' :: (v ++ r)) ≤ assignments r.tail + 1 := by
  cases r with
  | nil =>
    rw [assignments_group h.key_equals (a := v) (b := []) ⟨h.value_ampersand, .inl (by simp)⟩]
    exact Nat.le_refl _
  | cons c r =>
    rcases hr c rfl with rfl | rfl
    · rw [assignments_group h.key_equals (a := v) (b := r) ⟨h.value_ampersand, .inr rfl⟩]
      exact Nat.le_refl _
    · -- the value is cut off, and what is left of it may have a `=` itself
      obtain ⟨a, b, ha⟩ := exists_firstSegment r
      have hcut : FirstSegment (v ++ nul :: r) (v ++ nul :: a) b := by
        refine ⟨by simp [h.value_ampersand, ha.1, nul], ?_⟩
        rcases ha.2 with ⟨rfl, rfl⟩ | rfl
        · exact .inl ⟨rfl, rfl⟩
        · exact .inr (by simp)
      rw [assignments_group h.key_equals hcut]
      exact Nat.succ_le_succ (assignments_le_of_firstSegment ha)

/-- One character less is at most one segment with a `=` less. -/
theorem assignments_drop_one (t : List Char) : assignments t ≤ assignments (t.drop 1) + 1 := by
  cases t with
  | nil => exact Nat.zero_le _
  | cons c t =>
    by_cases hc : c = '='
    · subst hc
      obtain ⟨a, b, h⟩ := exists_firstSegment t
      have hgroup := assignments_group (k := []) (by simp) h
      rw [List.nil_append] at hgroup
      rw [hgroup]
      exact Nat.succ_le_succ (assignments_le_of_firstSegment h)
    · rw [assignments_cons hc]
      exact Nat.le_succ _

/-- **Counting.**  The loop adds a value in each round, and it does not have less rounds than there
    are segments with a `=`. -/
theorem rounds_count {s' : State} (h : run more round n s = some s') :
    ∃ out, s'.res = s.res ++ out ∧ assignments s.rest ≤ out.length := by
  refine run_induction (P := fun s s' =>
    ∃ out, s'.res = s.res ++ out ∧ assignments s.rest ≤ out.length) ?_ ?_ h
  · intro s hs
    have hrest : s.rest = [] := by simpa [more] using hs
    exact ⟨[], by simp, by rw [hrest]; exact Nat.le_refl _⟩
  · rintro s r t - - hround - ⟨out, hout, hcount⟩
    rcases round_eq_some hround with ⟨k, v, r', hs, hpair, hr', rfl⟩ | ⟨v, rfl⟩
    · refine ⟨v :: out, by simp [hout], ?_⟩
      rw [hs]
      exact Nat.le_trans (assignments_pair hpair hr') (Nat.succ_le_succ hcount)
    · refine ⟨v :: out, by simp [hout], ?_⟩
      exact Nat.le_trans (assignments_drop_one _) (Nat.succ_le_succ hcount)

/-- The value that a round appends is the first one of those that are left. -/
theorem eq_cons_of_append {res l out : List (List Char)} (h : res ++ [v] ++ out = res ++ l) :
    l = v :: out := by
  rw [List.append_assoc] at h
  exact (List.append_cancel_left h).symm

/-- **The loop ends**: as many rounds as there are characters are enough, and more make no
    difference. -/
theorem run_more_eq {m : Nat} (hn : s.rest.length ≤ n) (hm : s.rest.length ≤ m) :
    run more round n s = run more round m s := by
  induction n generalizing s m with
  | zero =>
    have hstop : more s = false := by simpa [more] using hn
    rw [run_of_not hstop, run_of_not hstop]
  | succ n ih =>
    cases hmore : more s with
    | false => rw [run_of_not hmore, run_of_not hmore]
    | true =>
      have hpos : 0 < s.rest.length := List.length_pos_iff.mpr (by simpa [more] using hmore)
      obtain ⟨m, rfl⟩ : ∃ k, m = k + 1 := ⟨m - 1, by omega⟩
      rw [run, run, if_pos hmore, if_pos hmore]
      cases hround : round s with
      | none => rfl
      | some s' =>
        have hshort : s'.rest.length < s.rest.length := by
          rcases round_eq_some hround with ⟨k, v, r, hs, -, -, rfl⟩ | ⟨v, rfl⟩
          · simp [hs]
            omega
          · simp
            omega
        exact ih (by omega) (by omega)

/-! ### Well-formed queries -/

/-- A key and a value of the lengths that the buffers have room for. -/
structure WellFormed (p : List Char × List Char) : Prop where
  key_ne_nil : p.1 ≠ []
  key_length : p.1.length ≤ 15
  key_equals : '=' ∉ p.1
  value_ne_nil : p.2 ≠ []
  value_length : p.2.length ≤ 15
  value_ampersand : '&' ∉ p.2

instance (p : List Char × List Char) : Decidable (WellFormed p) :=
  decidable_of_iff (p.1 ≠ [] ∧ p.1.length ≤ 15 ∧ '=' ∉ p.1 ∧ p.2 ≠ [] ∧ p.2.length ≤ 15 ∧ '&' ∉ p.2)
    ⟨fun ⟨h₁, h₂, h₃, h₄, h₅, h₆⟩ => ⟨h₁, h₂, h₃, h₄, h₅, h₆⟩,
      fun h => ⟨h.key_ne_nil, h.key_length, h.key_equals, h.value_ne_nil, h.value_length,
        h.value_ampersand⟩⟩

/-- `k1=v1&k2=v2&...`. -/
def query (ps : List (List Char × List Char)) : List Char :=
  ['&'].intercalate (ps.map fun p => p.1 ++ '=' :: p.2)

/-- What follows a pair in a query. -/
def behind : List (List Char × List Char) → List Char
  | []      => []
  | p :: ps => '&' :: query (p :: ps)

/-- The query of some pairs begins with the first one. -/
theorem query_cons (p : List Char × List Char) (ps : List (List Char × List Char)) :
    query (p :: ps) = p.1 ++ '=' :: (p.2 ++ behind ps) := by
  cases ps <;> simp [query, behind, List.intercalate]

/-- Behind the `&` there is the query of the others. -/
theorem tail_behind : (behind ps).tail = query ps := by
  cases ps <;> rfl

/-- A pair without a NUL in it is one that the scan accepts. -/
theorem WellFormed.pair {p : List Char × List Char} (h : WellFormed p)
    (hnul : nul ∉ p.1 ∧ nul ∉ p.2) : Pair p.1 p.2 :=
  ⟨h.key_ne_nil, h.key_length, h.key_equals, hnul.1, h.value_ne_nil, h.value_length,
    h.value_ampersand, hnul.2⟩

/-- **The query of well-formed pairs** is read pair by pair. -/
theorem pairs_query (hps : ∀ p ∈ ps, WellFormed p) (hnul : ∀ p ∈ ps, nul ∉ p.1 ∧ nul ∉ p.2) :
    Pairs (query ps) ps := by
  induction ps with
  | nil => exact .nil
  | cons p ps ih =>
    rw [List.forall_mem_cons] at hps hnul
    have hpair := hps.1.pair hnul.1
    rw [query_cons]
    cases ps with
    | nil =>
      rw [behind, List.append_nil]
      exact .last hpair
    | cons p' ps => exact .cons hpair (ih hps.2 hnul.2)

/-- It has one `=` for each pair. -/
theorem assignments_query (hps : ∀ p ∈ ps, WellFormed p) : assignments (query ps) = ps.length := by
  induction ps with
  | nil => rfl
  | cons p ps ih =>
    rw [List.forall_mem_cons] at hps
    have hfirst : FirstSegment (p.2 ++ behind ps) p.2 (query ps) := by
      refine ⟨hps.1.value_ampersand, ?_⟩
      cases ps with
      | nil => exact .inl ⟨List.append_nil _, rfl⟩
      | cons p' ps => exact .inr rfl
    rw [query_cons, assignments_group hps.1.key_equals hfirst, ih hps.2, List.length_cons]

/-- If the loop gives the values of the pairs, then there is no `nul` in them: the rounds up to the
    first one would stop there, and there would be a round too many. -/
theorem nul_not_mem_of_run {s' : State} (h : run more round n s = some s')
    (hps : ∀ p ∈ ps, WellFormed p) (hs : s.rest = query ps)
    (hres : s'.res = s.res ++ ps.map Prod.snd) : ∀ p ∈ ps, nul ∉ p.1 ∧ nul ∉ p.2 := by
  refine run_induction (P := fun s s' => ∀ ps, (∀ p ∈ ps, WellFormed p) → s.rest = query ps →
    s'.res = s.res ++ ps.map Prod.snd → ∀ p ∈ ps, nul ∉ p.1 ∧ nul ∉ p.2) ?_ ?_ h ps hps hs hres
  · intro s hstop ps hps hs hres
    rw [List.self_eq_append_right, List.map_eq_nil_iff] at hres
    simp [hres]
  · intro s r t m hmore hround hrun ih ps hps hs hres
    obtain ⟨p, ps, rfl⟩ : ∃ p ps', ps = p :: ps' := by
      cases ps with
      | nil => simp [more, hs, query] at hmore
      | cons p ps => exact ⟨p, ps, rfl⟩
    rw [List.forall_mem_cons] at hps ⊢
    rcases round_eq_some hround with ⟨k, v, r', hs', hpair, hr', rfl⟩ | ⟨v, rfl⟩
    · -- the scan has taken this pair, so it is the value of it that has been added
      obtain ⟨out, hout, -⟩ := rounds_count hrun
      obtain ⟨rfl, hout'⟩ := List.cons_eq_cons.mp (eq_cons_of_append (hout.symm.trans hres))
      rw [hs, query_cons] at hs'
      obtain ⟨rfl, hrest⟩ := append_cons_inj hps.1.key_equals hpair.key_equals hs'
      have hbehind := List.append_cancel_left hrest
      refine ⟨⟨hpair.key_nul, hpair.value_nul⟩, ih ps hps.2 ?_ ?_⟩
      · rw [← hbehind, tail_behind]
      · rw [hout, ← hout']
    · -- the scan has failed: one value more, and the `=` of the pair is still to come
      obtain ⟨out, hout, hcount⟩ := rounds_count hrun
      have hlen := congrArg List.length (hout.symm.trans hres)
      obtain ⟨c, k, hkey⟩ := List.exists_cons_of_ne_nil hps.1.key_ne_nil
      have hc : c ≠ '=' := by
        rintro rfl
        exact hps.1.key_equals (by simp [hkey])
      have hsame : assignments (s.rest.drop 1) = ps.length + 1 := by
        have hall := assignments_query (List.forall_mem_cons.mpr hps)
        rw [← hs] at hall
        rw [← List.length_cons (a := p), ← hall, hs, query_cons, hkey, List.cons_append,
          List.drop_one, List.tail_cons, assignments_cons hc]
      rw [hsame] at hcount
      simp at hlen
      omega

/-! ### The query of a URI -/

/-- What is behind the first `?`. -/
def queryOf (uri : List Char) : List Char := (uri.dropWhile (· ≠ '?')).tail

/-- `parseTopic` is the loop over what follows the first `?`. -/
theorem parseTopic_eq (uri : List Char) : parseTopic uri
    = (run more round (queryOf uri).length { rest := queryOf uri }).map State.res := by
  unfold parseTopic queryOf
  cases uri.dropWhile (· ≠ '?') <;> rfl

/-- The query begins behind the first `?`. -/
theorem queryOf_append {pre : List Char} (hpre : '?' ∉ pre) (q : List Char) :
    queryOf (pre ++ '?' :: q) = q := by
  rw [queryOf, dropWhile_ne_append hpre, List.tail_cons]

/-- **Well-formed queries.**  The result is the list of the values exactly if no key and no value
    has a zero character in it. -/
theorem well_formed_query {pre : List Char} (hpre : '?' ∉ pre) (hps : ∀ p ∈ ps, WellFormed p) :
    parseTopic (pre ++ '?' :: query ps) = some (ps.map Prod.snd)
      ↔ ∀ p ∈ ps, nul ∉ p.1 ∧ nul ∉ p.2 := by
  rw [parseTopic_eq, queryOf_append hpre]
  constructor
  · intro h
    obtain ⟨s', hrun, hres⟩ := Option.map_eq_some_iff.mp h
    exact nul_not_mem_of_run hrun hps rfl hres
  · intro hnul
    obtain ⟨v, hrun⟩ := rounds_pairs (s := { rest := query ps }) (pairs_query hps hnul) rfl
      (Nat.le_refl _)
    rw [hrun]
    rfl

/-- The commented test of the source. -/
theorem well_formed_query_two :
    parseTopic ("ws://192.168.10.101:9001".toList ++ '?' ::
        query [("w1".toList, "182".toList), ("w2".toList, "184".toList)])
      = some ["182".toList, "184".toList] :=
  (well_formed_query (by decide) (by decide)).mpr (by decide)

/-- The value `b`, a zero character and `c`: two rounds. -/
theorem well_formed_query_zero :
    WellFormed ("a".toList, ['b', nul, 'c']) ∧
    parseTopic ("?".toList ++ query [("a".toList, ['b', nul, 'c'])])
      = some ["b".toList, "b".toList] := by decide

/-! ### Malformed segments -/

/-- What the function is for: a value in the result is that of a segment which is not malformed, and
    each such segment gives one value at most, in the order of the segments. -/
def Sound (uri : List Char) : Prop :=
  ∃ res, parseTopic uri = some res ∧ res.Sublist (values (queryOf uri))

/-- The keys of the pairs do not end with an ampersand: the segment of the value has a key. -/
theorem values_pairs (h : Pairs t ps) (hlast : ∀ p ∈ ps, p.1.getLast? ≠ some '&') :
    values t = ps.map Prod.snd := by
  induction h with
  | nil => rfl
  | @last k v hpair =>
    have hk := hlast _ List.mem_cons_self
    rw [values_group hpair.key_equals (a := v) (b := []) ⟨hpair.value_ampersand, .inl ⟨rfl, rfl⟩⟩]
    simp [hpair.key_ne_nil, hpair.value_ne_nil, hk]
    rfl
  | @cons k v t ps hpair _ ih =>
    rw [List.forall_mem_cons] at hlast
    rw [values_group hpair.key_equals (a := v) (b := t) ⟨hpair.value_ampersand, .inr rfl⟩,
      ih hlast.2]
    simp [hpair.key_ne_nil, hpair.value_ne_nil, hlast.1]

/-- If all segments with a `=` have a value, then none of them begins with the `=`. -/
theorem assignments_le_drop_one (h : (values t).length = assignments t) :
    assignments t ≤ assignments (t.drop 1) := by
  cases t with
  | nil => exact Nat.zero_le _
  | cons c x =>
    by_cases hc : c = '='
    · subst hc
      obtain ⟨a, b, hfirst⟩ := exists_firstSegment x
      have hle := length_values_le b
      have hassign := assignments_group (k := []) (by simp) hfirst
      have hval := values_group (k := []) (by simp) hfirst
      simp only [List.nil_append, true_or, if_true] at hassign hval
      rw [hassign, hval] at h
      omega
    · rw [assignments_cons hc]
      exact Nat.le_refl _

/-- If all segments with a `=` have a value, and the scan has taken the first one of these values,
    then the ampersand or the end is behind it, and its segment has a key. -/
theorem pair_of_values {out : List (List Char)} (hpair : Pair k v)
    (hvalues : values (k ++ '=' :: (v ++ r)) = v :: out)
    (hcount : (values (k ++ '=' :: (v ++ r))).length = assignments (k ++ '=' :: (v ++ r))) :
    k.getLast? ≠ some '&' ∧ values r.tail = out ∧
      (values r.tail).length = assignments r.tail ∧ (r = [] ∨ r = '&' :: r.tail) := by
  obtain ⟨a, b, hfirst⟩ := exists_firstSegment (v ++ r)
  have hle := length_values_le b
  rw [assignments_group hpair.key_equals hfirst, values_group hpair.key_equals hfirst] at hcount
  rw [values_group hpair.key_equals hfirst] at hvalues
  split_ifs at hcount hvalues with hbad
  · -- a segment without a key has no value
    simp at hcount
    omega
  · push Not at hbad
    obtain ⟨rfl, hb⟩ := List.cons_eq_cons.mp hvalues
    have hcount' : (values b).length = assignments b := by simpa using hcount
    rcases hfirst.2 with ⟨hr, rfl⟩ | hr
    · obtain rfl := List.self_eq_append_right.mp hr.symm
      exact ⟨hbad.2.1, hb, hcount', .inl rfl⟩
    · obtain rfl := List.append_cancel_left hr
      exact ⟨hbad.2.1, hb, hcount', .inr rfl⟩

/-- If the loop gives the values of the segments, and all segments with a `=` have a value, then the
    text is a sequence of pairs. -/
theorem pairs_of_run {s' : State} (h : run more round n s = some s')
    (hres : s'.res = s.res ++ values s.rest)
    (hcount : (values s.rest).length = assignments s.rest) :
    ∃ ps, Pairs s.rest ps ∧ ∀ p ∈ ps, p.1.getLast? ≠ some '&' := by
  refine run_induction (P := fun s s' => s'.res = s.res ++ values s.rest →
    (values s.rest).length = assignments s.rest →
    ∃ ps, Pairs s.rest ps ∧ ∀ p ∈ ps, p.1.getLast? ≠ some '&') ?_ ?_ h hres hcount
  · intro s hstop _ _
    have hrest : s.rest = [] := by simpa [more] using hstop
    exact ⟨[], by rw [hrest]; exact .nil, by simp⟩
  · intro s s₁ t m hmore hround hrun ih hres hcount
    obtain ⟨out, hout, hrounds⟩ := rounds_count hrun
    rcases round_eq_some hround with ⟨k, v, r, hs, hpair, hr, rfl⟩ | ⟨v, rfl⟩
    · have hvalues := eq_cons_of_append (hout.symm.trans hres)
      rw [hs] at hvalues hcount ⊢
      obtain ⟨hkey, htail, hcount', hr'⟩ := pair_of_values hpair hvalues hcount
      obtain ⟨ps, hps, hlast⟩ := ih (by rw [hout, htail]) hcount'
      rcases hr' with rfl | hr'
      · exact ⟨[(k, v)], by rw [List.append_nil]; exact .last hpair, by simpa using hkey⟩
      · rw [hr']
        exact ⟨(k, v) :: ps, .cons hpair hps, List.forall_mem_cons.mpr ⟨hkey, hlast⟩⟩
    · -- the scan has failed, and no segment with a `=` has been passed
      have hvalues := eq_cons_of_append (hout.symm.trans hres)
      have hsame := assignments_le_drop_one hcount
      rw [hvalues, List.length_cons] at hcount
      simp only at hrounds
      omega

/-- **Malformed segments.**  The result has values of segments that are not malformed only, exactly
    if the query is a sequence of pairs: with segments without a `=` as a part of the key behind
    them, and without such segments at the end. -/
theorem malformed_segments (uri : List Char) :
    Sound uri ↔ ∃ ps, Pairs (queryOf uri) ps ∧ ∀ p ∈ ps, p.1.getLast? ≠ some '&' := by
  unfold Sound
  rw [parseTopic_eq]
  constructor
  · rintro ⟨res, hres, hsub⟩
    obtain ⟨s', hrun, rfl⟩ := Option.map_eq_some_iff.mp hres
    obtain ⟨out, hout, hrounds⟩ := rounds_count hrun
    rw [List.nil_append] at hout
    -- there are not less rounds than segments with a value, so all of them are in the result
    have hle := length_values_le (queryOf uri)
    have hlen := hsub.length_le
    rw [hout] at hlen hsub
    simp only at hrounds
    refine pairs_of_run hrun ?_ (by simp only; omega)
    rw [hout, hsub.eq_of_length_le (by omega)]
    rfl
  · rintro ⟨ps, hpairs, hlast⟩
    obtain ⟨v, hrun⟩ := rounds_pairs (s := { rest := queryOf uri }) hpairs rfl (Nat.le_refl _)
    refine ⟨ps.map Prod.snd, by rw [hrun]; rfl, ?_⟩
    rw [values_pairs hpairs hlast]

/-- Segments that are malformed: one without a `=` at the end repeats the value before it, one
    without a value repeats it twice, one without a key gives its own value if a segment without a
    `=` is before it, and with nothing to repeat a buffer is read that has not been written. -/
theorem malformed_segments_repeat :
    (parseTopic "?a=b&c".toList = some ["b".toList, "b".toList] ∧
      values "a=b&c".toList = ["b".toList]) ∧
    parseTopic "?a=b&c=&d=e".toList
      = some ["b".toList, "b".toList, "b".toList, "e".toList] ∧
    (parseTopic "?a&=b".toList = some ["b".toList] ∧ values "a&=b".toList = []) ∧
    parseTopic "?a".toList = none ∧
    ¬ Sound "?a=b&c".toList := by
  refine ⟨by decide, by decide, by decide, by decide, ?_⟩
  rintro ⟨res, hres, hsub⟩
  have hparse : parseTopic "?a=b&c".toList = some ["b".toList, "b".toList] := by decide
  cases hparse.symm.trans hres
  exact absurd hsub.length_le (by decide)

end ParseTopic

end CPlayground.Relay
