import Mathlib.Data.UInt

namespace CPlayground.AddressSpace

/-!
# The memory of a process

All the bytes, by their addresses of 64 bits; addresses are added modulo `2 ^ 64`.

* `bytesAt mem a n` — the bytes from an address on.
* `bytesAt_add` — they can be read in parts.
* `offset a b` — how far `b` is behind `a`; this is a number for every address.
* `patch mem a bs` — the memory with other bytes from an address on.
* `patch_patch` — patches that follow each other are one patch.
* `bytesAt_patch`, `patch_eq_iff` — what a patch leaves, inside and behind it.
* `forall_patch_eq_iff` — it leaves every memory as it was behind some point, if it ends there.
-/

/-- All the bytes. -/
abbrev Space := UInt64 → UInt8

/-- The bytes from an address on. -/
def bytesAt (mem : Space) (a : UInt64) (n : Nat) : List UInt8 :=
  (List.range n).map fun i => mem (a + UInt64.ofNat i)

/-- How far an address is behind another one. -/
def offset (a b : UInt64) : Nat := (b - a).toNat

/-- The memory with other bytes from an address on. -/
def patch (mem : Space) (a : UInt64) (bs : List UInt8) : Space := fun b =>
  (bs[offset a b]?).getD (mem b)

variable {mem : Space} {a b : UInt64} {k n : Nat} {bs cs : List UInt8}

/-- As many bytes as were asked for; the addresses wrap around. -/
@[simp] theorem length_bytesAt (mem : Space) (a : UInt64) (n : Nat) :
    (bytesAt mem a n).length = n := by simp [bytesAt]

/-- Two steps from an address are one. -/
theorem add_add_ofNat (a : UInt64) (k i : Nat) :
    a + UInt64.ofNat k + UInt64.ofNat i = a + UInt64.ofNat (k + i) := by
  rw [UInt64.ofNat_add, UInt64.add_assoc]

/-- The bytes from an address on, up to a later one and from there on. -/
theorem bytesAt_add (mem : Space) (a : UInt64) (m n : Nat) :
    bytesAt mem a (m + n) = bytesAt mem a m ++ bytesAt mem (a + UInt64.ofNat m) n := by
  rw [bytesAt, List.range_add, List.map_append, List.map_map, bytesAt, bytesAt]
  congr 2
  funext i
  show mem (a + UInt64.ofNat (m + i)) = mem (a + UInt64.ofNat m + UInt64.ofNat i)
  rw [add_add_ofNat]

/-- The first of the bytes at an address are the bytes at this address. -/
theorem take_bytesAt (mem : Space) (a : UInt64) (h : k ≤ n) :
    (bytesAt mem a n).take k = bytesAt mem a k := by
  rw [bytesAt, bytesAt, ← List.map_take, List.take_range, Nat.min_eq_left h]

/-- The distance as a natural number: it is taken modulo the size of the space. -/
theorem offset_eq (a b : UInt64) : offset a b = (2 ^ 64 - a.toNat + b.toNat) % 2 ^ 64 :=
  UInt64.toNat_sub b a

/-- A step from an address, as a natural number. -/
theorem toNat_add_ofNat (a : UInt64) (k : Nat) :
    (a + UInt64.ofNat k).toNat = (a.toNat + k) % 2 ^ 64 := by
  rw [UInt64.toNat_add, UInt64.toNat_ofNat', Nat.add_mod_mod]

/-- The distance of an address from the one that it was reached from. -/
theorem offset_add (h : k < 2 ^ 64) : offset a (a + UInt64.ofNat k) = k := by
  have ha := a.toNat_lt
  rw [offset_eq, toNat_add_ofNat]
  omega

/-- Every address is at its offset. -/
theorem add_offset (a b : UInt64) : a + UInt64.ofNat (offset a b) = b := by
  have ha := a.toNat_lt
  have hb := b.toNat_lt
  apply UInt64.toNat_inj.mp
  rw [toNat_add_ofNat, offset_eq]
  omega

/-- An offset from a later address. -/
theorem offset_add_left (hk : k < 2 ^ 64) :
    offset (a + UInt64.ofNat k) b
      = if k ≤ offset a b then offset a b - k else offset a b + 2 ^ 64 - k := by
  have ha := a.toNat_lt
  have hb := b.toNat_lt
  rw [offset_eq, offset_eq, toNat_add_ofNat]
  split <;> omega

/-- **Two patches**, one behind the other, are one patch with the bytes of both, as long as they do
    not come around to their beginning. -/
theorem patch_patch (h : bs.length + cs.length < 2 ^ 64) :
    patch (patch mem a bs) (a + UInt64.ofNat bs.length) cs = patch mem a (bs ++ cs) := by
  funext b
  show (cs[offset _ b]?).getD ((bs[offset a b]?).getD (mem b))
    = ((bs ++ cs)[offset a b]?).getD (mem b)
  rw [offset_add_left (by omega)]
  split
  case isTrue hle =>
    rw [List.getElem?_append_right hle, List.getElem?_eq_none hle]
    rfl
  case isFalse hlt =>
    -- the second patch would have to go round the whole memory to be there
    have hlow : offset a b < bs.length := by omega
    rw [List.getElem?_append_left hlow, List.getElem?_eq_none (l := cs) (by omega)]
    rfl

/-- A patch is there. -/
theorem bytesAt_patch (h : bs.length ≤ 2 ^ 64) (hn : n ≤ bs.length) :
    bytesAt (patch mem a bs) a n = bs.take n := by
  apply List.ext_getElem
  · simp [hn]
  · intro i hi hi'
    have hlt : i < bs.length := by
      rw [length_bytesAt] at hi
      omega
    simp only [bytesAt, List.getElem_map, List.getElem_range, patch, List.getElem_take]
    rw [offset_add (by omega), List.getElem?_eq_getElem hlt, Option.getD_some]

/-- The byte that is `k` behind an address. -/
theorem getElem?_bytesAt (h : k < n) : (bytesAt mem a n)[k]? = some (mem (a + UInt64.ofNat k)) := by
  simp [bytesAt, h]

/-- **A patch that changes nothing** from some point on: its bytes from there on were in the memory
    before. -/
theorem patch_eq_iff (mem : Space) (a : UInt64) (h : bs.length + cs.length ≤ 2 ^ 64) :
    (∀ b, bs.length ≤ offset a b → patch mem a (bs ++ cs) b = mem b) ↔
      cs = bytesAt mem (a + UInt64.ofNat bs.length) cs.length := by
  constructor
  · intro hsame
    apply List.ext_getElem?
    intro i
    rcases Nat.lt_or_ge i cs.length with hi | hi
    · have hoffset : offset a (a + UInt64.ofNat (bs.length + i)) = bs.length + i :=
        offset_add (by omega)
      have hbyte := hsame _ (by rw [hoffset]; exact Nat.le_add_right _ i)
      rw [patch, hoffset, List.getElem?_append_right (Nat.le_add_right _ i),
        Nat.add_sub_cancel_left, List.getElem?_eq_getElem hi, Option.getD_some] at hbyte
      rw [getElem?_bytesAt hi, add_add_ofNat, ← hbyte, List.getElem?_eq_getElem hi]
    · rw [List.getElem?_eq_none hi, List.getElem?_eq_none (by rw [length_bytesAt]; exact hi)]
  · intro hbytes b hb
    rw [patch, List.getElem?_append_right hb]
    rcases Nat.lt_or_ge (offset a b - bs.length) cs.length with hi | hi
    · -- every address is reached from `a`, so this one is a byte of `bytesAt`
      rw [hbytes, getElem?_bytesAt hi, Option.getD_some, add_add_ofNat, Nat.add_sub_cancel' hb,
        add_offset]
    · rw [List.getElem?_eq_none hi, Option.getD_none]

/-- **A patch that changes nothing in any memory** from some point on: it has no bytes there.  For a
    byte that it has there is a memory with another one. -/
theorem forall_patch_eq_iff (a : UInt64) (h : bs.length + cs.length ≤ 2 ^ 64) :
    (∀ mem b, bs.length ≤ offset a b → patch mem a (bs ++ cs) b = mem b) ↔ cs = [] := by
  constructor
  · intro hsame
    cases cs with
    | nil => rfl
    | cons c cs =>
      have hbytes := (patch_eq_iff (fun _ => c + 1) a h).mp (hsame fun _ => c + 1)
      have hfirst := congrArg List.head? hbytes
      rw [List.head?_cons, List.head?_eq_getElem?, getElem?_bytesAt (by simp)] at hfirst
      exact absurd (Option.some.inj hfirst) (by simp)
  · rintro rfl mem
    exact (patch_eq_iff mem a h).mpr rfl

end CPlayground.AddressSpace
