import Mathlib.Logic.Function.Basic
import Mathlib.Algebra.Group.Nat.Defs

/-! Words in a memory of bytes, the least byte first: what a store leaves for a load
of the same place, and that it leaves the loads of every other place alone. Nothing
here names a particular machine. -/
namespace CuteNdk.Lib.Bytes

abbrev Memory := Nat → UInt8

/- The word of w bytes at a. -/
def load : Nat → Memory → Nat → Nat
  | 0, _, _ => 0
  | w + 1, m, a => (m a).toNat + 256 * load w m (a + 1)

/- v goes to the w bytes at a, without the bits that have no place there. -/
def store : Nat → Memory → Nat → Nat → Memory
  | 0, m, _, _ => m
  | w + 1, m, a, v => store w (Function.update m a (UInt8.ofNat v)) (a + 1) (v / 256)

theorem loadBelow (w : Nat) (m : Memory) (a : Nat) : load w m a < 256 ^ w := by
  induction w generalizing a with
  | zero => exact Nat.one_pos
  | succ w ih =>
    have rest := ih (a + 1)
    have first := (m a).toNat_lt
    rw [load,pow_succ]
    omega

theorem loadCongr {w : Nat} {m m' : Memory} {a : Nat} (same : ∀ x, a ≤ x → x < a + w → m' x = m x) :
    load w m' a = load w m a := by
  induction w generalizing a with
  | zero => rfl
  | succ w ih =>
    rw [load,load,same a (Nat.le_refl a) (by omega),ih fun x low high => same x (by omega) (by omega)]

theorem storeOutside {w : Nat} {m : Memory} {a v x : Nat} (outside : x < a ∨ a + w ≤ x) : store w m a v x = m x := by
  induction w generalizing m a v with
  | zero => rfl
  | succ w ih =>
    have other : x ≠ a := by omega
    rw [store,ih (by omega),Function.update_of_ne other]

theorem loadStore {w : Nat} {m : Memory} {a v : Nat} (fits : v < 256 ^ w) : load w (store w m a v) a = v := by
  induction w generalizing m a v with
  | zero =>
    rw [pow_zero] at fits
    rw [load]
    omega
  | succ w ih =>
    rw [pow_succ] at fits
    have first : store w (Function.update m a (UInt8.ofNat v)) (a + 1) (v / 256) a = UInt8.ofNat v := by
      rw [storeOutside (.inl (Nat.lt_succ_self a)),Function.update_self]
    rw [load,store,ih (by omega),first,UInt8.toNat_ofNat']
    omega

theorem loadStoreApart {w k : Nat} {m : Memory} {a b v : Nat} (apart : b + k ≤ a ∨ a + w ≤ b) :
    load k (store w m a v) b = load k m b :=
  loadCongr fun _ _ _ => storeOutside (by omega)

end CuteNdk.Lib.Bytes
