import DepScope.Proofs.Script.Malformed
import DepScope.Proofs.Toml.Malformed

/-!
# DepScope.Proofs.Escapes

Malformed escapes, in the bodies of script literals and in basic strings of documents.

Both readers hand the digits of an escape to one that allows a plus sign in front. So a malformed
escape is refused unless a plus sign stands where its first digit should, and with a plus sign it is
taken for the escape of the digits behind it (`malformed_refused_iff`, `malformed_taken_of_plus`).
-/

namespace DepScope

open Text

/-- **A malformed escape passes only with a plus sign.** A text with a malformed escape is refused
exactly if it is not put together from plain characters, escapes, and escapes whose first digit is a
plus sign; in particular if it has no plus sign. -/
theorem malformed_refused_iff (text raw body : List Char) (skips : Char → Bool) :
    (SomeEscape Script.Broken text →
      (Script.decodeEscapes? text = none ↔ ¬ Composed Script.Taken text) ∧
        ('+' ∉ text → Script.decodeEscapes? text = none)) ∧
    (Toml.IsBasic raw skips body → SomeEscape Toml.Broken body →
      (Toml.decodeString? raw = none ↔ ¬ Composed (Toml.Taken skips) body) ∧
        ('+' ∉ body → Toml.decodeString? raw = none)) := by
  constructor
  · intro hbroken
    rw [Script.decodeEscapes?_eq_none_iff, ← Script.reads_isRead.accepts_iff]
    refine ⟨Iff.rfl, fun hplus hread => hplus ?_⟩
    exact Script.reads_isRead.mem_of_someEscape (fun _ _ => Script.Broken.plus_mem) hbroken hread
  · intro hraw hbroken
    have hskips := hraw.isBlank_of_skips
    have hreads := Toml.reads_isRead hskips
    rw [← Option.not_isSome_iff_eq_none, hraw.isSome_decodeString?, ← hreads.accepts_iff]
    refine ⟨Iff.rfl, fun hplus hread => hplus ?_⟩
    exact hreads.mem_of_someEscape (fun _ _ => Toml.Broken.plus_mem hskips) hbroken hread

/-- A byte with one digit, and the number of a surrogate. -/
theorem malformed_refused_of_few :
    let byte := ['\\', '\\', '\\', 'x', '4']
    let number := ['\\', 'n', '\\', 'u', 'd', '8', '0', '0']
    SomeEscape Script.Broken byte ∧ '+' ∉ byte ∧ Script.decodeEscapes? byte = none ∧
      SomeEscape Toml.Broken number ∧ '+' ∉ number ∧
      Toml.decodeString? (['"'] ++ number ++ ['"']) = none := by
  intro byte number
  have hbyte : SomeEscape Script.Broken byte := by
    refine .escaped (.here (.byte fun ds n _ hlen hpre => ?_))
    have hle := hpre.length_le
    rw [hlen] at hle
    exact absurd hle (by decide)
  have hnumber : SomeEscape Toml.Broken number := by
    refine .escaped (.here (.number (k := 4) (by decide) fun ds c hlen hds hpre => ?_))
    rw [hpre.eq_of_length hlen] at hds
    have hread := (natIn?_eq_some_iff (by decide)).mpr hds
    rw [show natIn? 16 ['d', '8', '0', '0'] = some 0xD800 by decide, Option.some.injEq] at hread
    have hvalid : c.toNat < 0xD800 ∨ 0xDFFF < c.toNat ∧ c.toNat < 0x110000 := c.valid
    omega
  have hraw : Toml.IsBasic (['"'] ++ number ++ ['"']) (fun _ => false) number := .line (by decide)
  have hplus : '+' ∉ byte ∧ '+' ∉ number := by decide
  obtain ⟨hscript, htoml⟩ := malformed_refused_iff byte (['"'] ++ number ++ ['"']) number
    fun _ => false
  exact ⟨hbyte, hplus.1, (hscript hbyte).2 hplus.1, hnumber, hplus.2,
    (htoml hraw hnumber).2 hplus.2⟩

/-- One digit behind a plus sign passes for two, and three for four. -/
theorem malformed_taken_of_plus :
    SomeEscape Script.Broken ['\\', 'x', '+', '4'] ∧
      Script.decodeEscapes? ['\\', 'x', '+', '4'] = some "\x04" ∧
      Toml.IsBasic (['"'] ++ ['\\', 'u', '+', '0', '4', '1'] ++ ['"']) (fun _ => false)
        ['\\', 'u', '+', '0', '4', '1'] ∧
      SomeEscape Toml.Broken ['\\', 'u', '+', '0', '4', '1'] ∧
      Toml.decodeString? (['"'] ++ ['\\', 'u', '+', '0', '4', '1'] ++ ['"']) = some ['A'] := by
  have hplus {ds cs : List Char} {n : Nat} (hds : Denotes 16 ds n)
      (hlen : ds.length = cs.length + 1) : ¬ ds <+: '+' :: cs := by
    intro hpre
    rw [hpre.eq_of_length hlen] at hds
    exact hds.notMem (by decide) (by decide) List.mem_cons_self
  exact ⟨.here (.byte fun ds n hds hlen => hplus hds hlen), by decide, .line (by decide),
    .here (.number (k := 4) (by decide) fun ds c hlen hds => hplus hds hlen), by decide⟩

end DepScope
