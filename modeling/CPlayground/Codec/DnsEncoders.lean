import CPlayground.Codec.DnsName

namespace CPlayground.DnsName

open Loop Memory

/-!
# The two encoders of host names

`ChangetoDnsNameFormat` puts a dot behind the host name and copies it label by label, each one at
the dot behind it; `name_encode` copies it at once and replaces the dots.

* `exists_pieces` — every string is a list of labels with dots between them, some of them empty.
* `changetoDnsNameFormat_host` — the counts and the labels are written, as `name_encode` does it.
* `encoders_agree` — so the two encoders agree on every string that is not too long for an `int`.
-/

/-! ### `ChangetoDnsNameFormat` -/

/-- The loop that copies the label at `host[lock]`, with `n` rounds to go. -/
def copyLabel (host : Mem) : Nat → Mem → Nat → Nat → Option Mem
  | 0,     dns, _, _    => some dns
  | n + 1, dns, d, lock =>
    (load host lock).bind fun c => (write dns d c).bind fun dns =>
      copyLabel host n dns (d + 1) (lock + 1)

/-- The variables of `ChangetoDnsNameFormat`: the buffer, `dns` as a position in it, `lock` and
    `i`. -/
structure Changer where
  buf : Mem
  dns : Nat
  lock : Nat
  i : Nat

/-- A round of the loop of `ChangetoDnsNameFormat`, with the `i++`. -/
def changeRound (host : Mem) (s : Changer) : Option Changer :=
  (load host s.i).bind fun c =>
    (if c = dot then
      (write s.buf s.dns (UInt8.ofInt (s.i - s.lock))).bind fun buf =>
        (copyLabel host (s.i - s.lock) buf (s.dns + 1) s.lock).map fun buf =>
          { s with buf, dns := s.dns + 1 + (s.i - s.lock), lock := s.i + 1 }
    else some s).bind fun s =>
      -- `i` is an `int`
      if s.i + 1 < 2 ^ 31 then some { s with i := s.i + 1 } else none

/-- `ChangetoDnsNameFormat(dns, host)`, for at most `fuel` rounds of the loop: the two buffers,
    which do not overlap. -/
def changetoDnsNameFormat (fuel : Nat) (dns host : Mem) : Option (Mem × Mem) :=
  -- `strcat((char*)host, ".")`
  (strlen host).bind fun n => (store host n [dot, 0]).bind fun host =>
    (strlen host).bind fun len =>
      (run (fun s => s.i < len) (changeRound host) fuel
          { buf := dns, dns := 0, lock := 0, i := 0 }).bind fun s =>
        (write s.buf s.dns 0).map fun buf => (buf, host)

/-! ### Strings as lists of labels -/

variable {l : List UInt8} {ls : List (List UInt8)}

/-- **Every string is a host name** in this sense: split it at its dots.  Two dots in a row, and one
    at either end, have an empty label beside them. -/
theorem exists_pieces {h : List UInt8} (h0 : 0 ∉ h) :
    ∃ l ls, h = host (l :: ls) ∧ ∀ l' ∈ l :: ls, Piece l' := by
  induction h with
  | nil => exact ⟨[], [], rfl, by simpa using ⟨List.not_mem_nil, List.not_mem_nil⟩⟩
  | cons c h ih =>
    rw [List.mem_cons, not_or] at h0
    obtain ⟨l, ls, rfl, hls⟩ := ih h0.2
    -- a dot begins a new label, and any other character belongs to the first one
    by_cases hc : c = dot
    · refine ⟨[], l :: ls, by rw [host_cons_cons, hc]; rfl, ?_⟩
      exact List.forall_mem_cons.mpr ⟨⟨List.not_mem_nil, List.not_mem_nil⟩, hls⟩
    · refine ⟨c :: l, ls, ?_, ?_⟩
      · cases ls with
        | nil => rw [host_singleton, host_singleton]
        | cons l' ls => rw [host_cons_cons, host_cons_cons, List.cons_append]
      · rw [List.forall_mem_cons] at hls ⊢
        refine ⟨⟨?_, ?_⟩, hls.2⟩
        · exact List.not_mem_cons_of_ne_of_not_mem (Ne.symm hc) hls.1.dot_not_mem
        · exact List.not_mem_cons_of_ne_of_not_mem h0.1 hls.1.zero_not_mem

/-- The labels, with a dot behind each of them. -/
def dotted (ls : List (List UInt8)) : List UInt8 := ls.flatMap (· ++ [dot])

/-- The first label with the dot behind it. -/
theorem dotted_cons (l : List UInt8) (ls : List (List UInt8)) :
    dotted (l :: ls) = l ++ dot :: dotted ls := by
  simp [dotted]

/-- The dot that `ChangetoDnsNameFormat` puts behind the host name. -/
theorem host_append_dot (l : List UInt8) (ls : List (List UInt8)) :
    host (l :: ls) ++ [dot] = dotted (l :: ls) := by
  induction ls generalizing l with
  | nil => simp [host_singleton, dotted]
  | cons l' ls ih => rw [host_cons_cons, dotted_cons, List.append_assoc, List.cons_append, ih]

/-! ### The loop -/

variable {fuel len : Nat}

/-- A label is copied byte by byte, from where the label begins in the host name to where its place
    in the encoded name is. -/
theorem copyLabel_eq (front back pre mid post : Mem) (hmid : mid.length = l.length) :
    copyLabel (front ++ (l.map some ++ back)) l.length (pre ++ (mid ++ post)) pre.length
        front.length
      = some (pre ++ (l.map some ++ post)) := by
  induction l generalizing front pre mid with
  | nil =>
    rw [List.length_nil, List.length_eq_zero_iff] at hmid
    subst hmid
    rfl
  | cons c l ih =>
    obtain ⟨x, mid, rfl⟩ := List.exists_cons_of_length_eq_add_one hmid
    have hrest := ih (front ++ [some c]) (pre ++ [some c]) mid (Nat.succ.inj hmid)
    simp only [List.length_append, List.length_singleton, List.append_assoc, List.singleton_append]
      at hrest
    rw [List.map_cons, List.cons_append, List.length_cons, copyLabel, load_append, Option.bind_some,
      List.cons_append, write_append, Option.bind_some]
    exact hrest

/-- A round at a character that is not a dot. -/
theorem changeRound_other {front back : Mem} {c : UInt8} (hc : c ≠ dot)
    (hint : front.length + 1 < 2 ^ 31) (buf : Mem) (dns lock : Nat) :
    changeRound (front ++ some c :: back) { buf, dns, lock, i := front.length }
      = some { buf, dns, lock, i := front.length + 1 } := by
  rw [changeRound, load_append, Option.bind_some, if_neg hc, Option.bind_some, if_pos hint]

/-- A round at the dot behind a label, which is copied with its count; the next label begins behind
    the dot. -/
theorem changeRound_dot (front back pre : Mem) (x : Option UInt8) (mid post : Mem)
    (hmid : mid.length = l.length) (hint : front.length + l.length + 1 < 2 ^ 31) :
    changeRound (front ++ (l.map some ++ some dot :: back))
        { buf := pre ++ x :: (mid ++ post), dns := pre.length, lock := front.length
          i := front.length + l.length }
      = some { buf := pre ++ some (count l) :: (l.map some ++ post)
               dns := pre.length + (l.length + 1), lock := front.length + l.length + 1
               i := front.length + l.length + 1 } := by
  have hload := load_append (front ++ l.map some) dot back
  have hcopy := copyLabel_eq front (some dot :: back) (pre ++ [some (count l)]) mid post hmid
  simp only [List.length_append, List.length_map, List.append_assoc, List.length_singleton,
    List.singleton_append] at hload hcopy
  rw [changeRound, hload, Option.bind_some, if_pos rfl]
  simp only [write_append, Option.bind_some, Nat.add_sub_cancel_left]
  rw [ofInt_count (l := l) (by omega), hcopy, Option.map_some, Option.bind_some]
  rw [if_pos hint, Nat.add_assoc, Nat.add_comm 1]

/-- Rounds at characters that are not dots do nothing but move `i` on. -/
theorem run_skip (front back : Mem) (hl : dot ∉ l) (hlen : front.length + l.length ≤ len)
    (hint : len < 2 ^ 31) (buf : Mem) (dns lock fuel : Nat) :
    run (fun s => s.i < len) (changeRound (front ++ (l.map some ++ back))) (l.length + fuel)
        { buf, dns, lock, i := front.length }
      = run (fun s => s.i < len) (changeRound (front ++ (l.map some ++ back))) fuel
        { buf, dns, lock, i := front.length + l.length } := by
  induction l generalizing front with
  | nil => simp
  | cons c l ih =>
    rw [List.mem_cons, not_or] at hl
    rw [List.length_cons] at hlen ⊢
    have hrest := ih (front ++ [some c]) hl.2 (by simp; omega)
    simp only [List.length_append, List.length_singleton, List.append_assoc, List.singleton_append]
      at hrest
    rw [List.map_cons, List.cons_append, Nat.add_right_comm,
      run_succ (by simp; omega) (changeRound_other (Ne.symm hl.1) (by omega) buf dns lock), hrest,
      Nat.add_assoc, Nat.add_comm 1]

/-- **The loop of `ChangetoDnsNameFormat`**, from the beginning of a label on, by induction over the
    labels that are left: at each dot the count and the label are written. -/
theorem changeLoop (front back pre mid post : Mem) (hls : ∀ l ∈ ls, Piece l)
    (hmid : mid.length = (encoded ls).length) (hlen : len = front.length + (dotted ls).length)
    (hint : len < 2 ^ 31) (hfuel : (dotted ls).length ≤ fuel) :
    run (fun s => s.i < len) (changeRound (front ++ ((dotted ls).map some ++ back))) fuel
        { buf := pre ++ (mid ++ post), dns := pre.length, lock := front.length, i := front.length }
      = some { buf := pre ++ ((encoded ls).map some ++ post)
               dns := pre.length + (encoded ls).length, lock := len, i := len } := by
  induction ls generalizing front pre mid fuel with
  | nil =>
    rw [encoded, List.flatMap_nil, List.length_nil, List.length_eq_zero_iff] at hmid
    subst hmid
    rw [dotted, List.flatMap_nil, List.length_nil, Nat.add_zero] at hlen
    rw [run_of_not (by simp [hlen]), hlen]
    rfl
  | cons l ls ih =>
    rw [List.forall_mem_cons] at hls
    rw [dotted_cons, List.length_append, List.length_cons] at hlen hfuel
    rw [encoded_cons, List.length_cons, List.length_append] at hmid
    obtain ⟨x, mid, rfl⟩ := List.exists_cons_of_length_eq_add_one hmid
    obtain ⟨mid, more, rfl, hmid', hmore⟩ : ∃ m m', mid = m ++ m' ∧ m.length = l.length ∧
        m'.length = (encoded ls).length := by
      rw [List.length_cons] at hmid
      exact ⟨mid.take l.length, mid.drop l.length, (List.take_append_drop _ _).symm, by simp; omega,
        by simp; omega⟩
    -- the rounds up to the dot, the round at the dot, and the rounds behind it
    obtain ⟨fuel, rfl⟩ : ∃ k, fuel = l.length + (k + 1) := ⟨fuel - l.length - 1, by omega⟩
    have hskip := run_skip front (some dot :: ((dotted ls).map some ++ back)) hls.1.dot_not_mem
      (by omega) hint (pre ++ x :: (mid ++ (more ++ post))) pre.length front.length (fuel + 1)
    have hround := changeRound_dot front ((dotted ls).map some ++ back) pre x mid (more ++ post)
      hmid' (by omega)
    have hdotted : (dotted ls).length ≤ fuel := by omega
    have hrest := ih (front ++ (l.map some ++ [some dot])) (pre ++ some (count l) :: l.map some)
      more hls.2 hmore (by simp; omega) hdotted
    simp only [List.length_append, List.length_map, List.append_assoc, List.length_cons,
      List.length_nil, List.cons_append, List.nil_append, ← Nat.add_assoc, Nat.add_zero]
      at hrest hround
    rw [dotted_cons, encoded_cons]
    simp only [List.map_append, List.map_cons, List.append_assoc, List.cons_append]
    rw [hskip, run_succ (by simp; omega) hround, hrest]
    simp only [List.length_cons, List.length_append, Nat.add_assoc, Nat.add_comm 1]

/-! ### The function -/

section

variable {h : List UInt8}

/-- The dot is no NUL. -/
theorem zero_not_mem_append_dot (h0 : 0 ∉ h) : 0 ∉ h ++ [dot] := by
  rw [List.mem_append, List.mem_singleton]
  rintro (h | h)
  · exact h0 h
  · exact absurd h (by decide)

/-- The host name with a dot behind it. -/
theorem store_dot (h : List UInt8) (x : Option UInt8) (more : Mem) :
    store (cstr h ++ x :: more) h.length [dot, 0] = some (cstr (h ++ [dot]) ++ more) := by
  have hlen : [some 0, x].length = [dot, 0].length := rfl
  have hstore := store_append (h.map some) [some 0, x] more hlen
  rw [List.length_map] at hstore
  rw [cstr_append, cstr_append, List.map_append, List.append_assoc]
  exact hstore

/-- The function on a string, up to its loop. -/
theorem changetoDnsNameFormat_cstr (h0 : 0 ∉ h) (dns : Mem) (x : Option UInt8) (more : Mem) :
    changetoDnsNameFormat fuel dns (cstr h ++ x :: more)
      = (run (fun s => s.i < h.length + 1) (changeRound (cstr (h ++ [dot]) ++ more)) fuel
          { buf := dns, dns := 0, lock := 0, i := 0 }).bind fun s =>
        (write s.buf s.dns 0).map fun buf => (buf, cstr (h ++ [dot]) ++ more) := by
  rw [changetoDnsNameFormat, strlen_append h0, Option.bind_some, store_dot, Option.bind_some,
    strlen_append (zero_not_mem_append_dot h0), Option.bind_some, List.length_append,
    List.length_singleton]

/-- An `int` does not count the characters of a string that is too long: with the dot that is
    appended there are `2 ^ 31` of them or more. -/
theorem changetoDnsNameFormat_long (h0 : 0 ∉ h) (hlong : 2 ^ 31 ≤ h.length + 1) (dns : Mem)
    (x : Option UInt8) (more : Mem) :
    changetoDnsNameFormat fuel dns (cstr h ++ x :: more) = none := by
  -- `i` stays an `int`, and so it is always less than the length
  have hloop : run (fun s => s.i < h.length + 1) (changeRound (cstr (h ++ [dot]) ++ more)) fuel
      { buf := dns, dns := 0, lock := 0, i := 0 } = none := by
    refine run_diverges (I := fun s => s.i < 2 ^ 31) (fun s hs => ?_) (fun s t _ hround => ?_)
      (Nat.two_pow_pos 31)
    · rw [decide_eq_true_eq]
      omega
    · simp only [changeRound, Option.bind_eq_some_iff, Option.ite_none_right_eq_some,
        Option.some_inj] at hround
      obtain ⟨c, -, s', -, hint, rfl⟩ := hround
      exact hint
  rw [changetoDnsNameFormat_cstr h0, hloop, Option.bind_none]

end

/-- **`ChangetoDnsNameFormat`** writes the counts and the labels, and nothing behind them.  The host
    name has room for the dot. -/
theorem changetoDnsNameFormat_host {dns : Mem} (hls : ∀ l' ∈ l :: ls, Piece l')
    (hint : (host (l :: ls)).length + 1 < 2 ^ 31) (hdns : (host (l :: ls)).length + 2 ≤ dns.length)
    (hfuel : (host (l :: ls)).length < fuel) (x : Option UInt8) (more : Mem) :
    changetoDnsNameFormat fuel dns (cstr (host (l :: ls)) ++ x :: more)
      = some (cstr (encoded (l :: ls)) ++ dns.drop ((host (l :: ls)).length + 2),
          cstr (host (l :: ls) ++ [dot]) ++ more) := by
  have hlen : (dotted (l :: ls)).length = (host (l :: ls)).length + 1 := by
    rw [← host_append_dot, List.length_append, List.length_singleton]
  obtain ⟨mid, y, hsplit, hmid⟩ := exists_split dns hdns
  have hrounds : (dotted (l :: ls)).length ≤ fuel := by omega
  have hloop := changeLoop [] (some 0 :: more) [] mid (y :: dns.drop ((host (l :: ls)).length + 2))
    hls (hmid.trans length_encoded.symm) rfl (by simp; omega) hrounds
  have hwrite := write_append ((encoded (l :: ls)).map some) y
    (dns.drop ((host (l :: ls)).length + 2)) 0
  simp only [List.nil_append, List.length_nil, Nat.zero_add, hlen, List.length_map, ← hsplit]
    at hloop hwrite
  rw [changetoDnsNameFormat_cstr (zero_not_mem_host hls), host_append_dot, cstr_append, hloop,
    Option.bind_some, hwrite, Option.map_some, cstr_append]

/-! ### The two encoders -/

/-- What the two functions have in common: in buffers with room for it they write the same name,
    which ends with the last zero, and nothing behind it. -/
def Agree (h : List UInt8) : Prop :=
  ∀ dst dns : Mem, h.length + 2 ≤ dst.length → h.length + 2 ≤ dns.length →
    ∀ (x : Option UInt8) (more : Mem) (fuel : Nat), h.length < fuel →
      ∃ name, name.length = h.length + 1 ∧
        nameEncode fuel dst (cstr h) = some (cstr name ++ dst.drop (h.length + 2)) ∧
        ∃ host, changetoDnsNameFormat fuel dns (cstr h ++ x :: more)
          = some (cstr name ++ dns.drop (h.length + 2), host)

/-- **Strings that are too long**: one of the encoders has no result, as one more than the length is
    not an `int`, and the other one has. -/
theorem not_agree {h : List UInt8} (h0 : 0 ∉ h) (hlong : 2 ^ 31 ≤ h.length + 1) : ¬ Agree h := by
  intro hagree
  have hroom : h.length + 2 ≤ (malloc (h.length + 2)).length := by
    rw [malloc, List.length_replicate]
  obtain ⟨name, -, -, host, hhost⟩ := hagree _ _ hroom hroom none [] (h.length + 1)
    (Nat.lt_succ_self _)
  rw [changetoDnsNameFormat_long h0 hlong] at hhost
  simp only [reduceCtorEq] at hhost

/-- **The two encoders agree**, as long as an `int` holds the length of the encoded name. -/
theorem encoders_agree {h : List UInt8} (h0 : 0 ∉ h) : Agree h ↔ h.length + 1 < 2 ^ 31 := by
  constructor
  · intro hagree
    by_contra hlong
    exact not_agree h0 (Nat.le_of_not_lt hlong) hagree
  · intro hint dst dns hdst hdns x more fuel hfuel
    obtain ⟨l, ls, rfl, hls⟩ := exists_pieces h0
    have hrounds : ls.length < fuel := Nat.lt_of_le_of_lt length_le_host hfuel
    exact ⟨encoded (l :: ls), length_encoded, nameEncode_host hls hint hdst hrounds, _,
      changetoDnsNameFormat_host hls hint hdns hfuel x more⟩

/-- The string `.a..`, with three empty labels. -/
theorem encoders_agree_dots : Agree [dot, 0x61, dot, dot] ∧
    nameEncode 5 (malloc 6) (cstr [dot, 0x61, dot, dot]) = some (cstr [0, 1, 0x61, 0, 0]) ∧
    (changetoDnsNameFormat 5 (malloc 6) (cstr [dot, 0x61, dot, dot] ++ [none])).map Prod.fst
      = some (cstr [0, 1, 0x61, 0, 0]) :=
  ⟨(encoders_agree (by decide)).mpr (by decide), by decide, by decide⟩

/-- `name_encode` adds one to the length, which overflows for the longest `int`. -/
theorem nameEncode_long {h : List UInt8} (h0 : 0 ∉ h) (hlong : h.length = 2 ^ 31 - 1) (dst : Mem) :
    nameEncode fuel dst (cstr h) = none := by
  have hadd : addOne (toInt (2 ^ 31 - 1)) = none := by decide
  rw [nameEncode, strlen_cstr h0, Option.bind_some, hlong, hadd, Option.bind_none]

/-- A string of $2^{31} - 1$ letters: `N + 1` is not an `int`, and neither is the `i` that ends the
    loop. -/
theorem encoders_agree_long : ∃ h : List UInt8, h = List.replicate (2 ^ 31 - 1) 0x61 ∧ 0 ∉ h ∧
    (∀ fuel dst, nameEncode fuel dst (cstr h) = none) ∧
    (∀ fuel dns x more, changetoDnsNameFormat fuel dns (cstr h ++ x :: more) = none) ∧
    ¬ Agree h := by
  -- the list is too long to be evaluated
  obtain ⟨h, hh⟩ : ∃ h : List UInt8, h = List.replicate (2 ^ 31 - 1) 0x61 := ⟨_, rfl⟩
  have h0 : 0 ∉ h := by
    intro hmem
    rw [hh, List.mem_replicate] at hmem
    exact absurd hmem.2 (by decide)
  have hlen : h.length = 2 ^ 31 - 1 := by rw [hh, List.length_replicate]
  have hlong : 2 ^ 31 ≤ h.length + 1 := by omega
  refine ⟨h, hh, h0, ?_, ?_, not_agree h0 hlong⟩
  · exact fun fuel dst => nameEncode_long h0 hlen dst
  · exact fun fuel dns x more => changetoDnsNameFormat_long h0 hlong dns x more

end CPlayground.DnsName
