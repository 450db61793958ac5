import BinaryLayout.Layout.Decode
import BinaryLayout.Layout.Parse
import BinaryLayout.Limits

/-!
# Formats

A format is a text together with the layout it stands for. A text becomes a format only if it can
be read, with its groups no deeper than the limits allow, and if a run of it yields no more data
than they allow; the second question is asked of the whole layout, after the text has been read.
-/

namespace BinaryLayout

/-- A text that has been read as a layout. -/
structure Format where
  source : String
  layout : Layout
deriving DecidableEq, Repr

namespace Format

/-- Reads a text as a format under limits. -/
def ofText (limits : Limits) (source : String) : Except FormatError Format := do
  let layout ← Layout.parse limits.depth.toNat source.toList
  if limits.values.toNat < layout.yield then
    .error (.tooManyValues limits.values.toNat)
  else
    .ok ⟨source, layout⟩

/-- A text is a format exactly if it reads as a layout and the layout's yield is allowed. -/
theorem ofText_eq_ok_iff {limits : Limits} {source : String} {format : Format} :
    ofText limits source = .ok format ↔
      Layout.parse limits.depth.toNat source.toList = .ok format.layout ∧
        format.layout.yield ≤ limits.values.toNat ∧ format.source = source := by
  unfold ofText
  cases Layout.parse limits.depth.toNat source.toList with
  | error e => simp [bind, Except.bind]
  | ok layout =>
    obtain ⟨text, found⟩ := format
    simp only [bind, Except.bind]
    split
    · next h =>
      simp only [reduceCtorEq, Except.ok.injEq, false_iff]
      rintro ⟨rfl, hle, _⟩
      omega
    · next h =>
      simp only [Except.ok.injEq, Format.mk.injEq]
      constructor
      · rintro ⟨rfl, rfl⟩
        exact ⟨rfl, by omega, rfl⟩
      · rintro ⟨rfl, _, rfl⟩
        exact ⟨rfl, rfl⟩

/-- The data that `bytes` hold from `offset` on. -/
def decode (format : Format) (bytes : Payload) (offset : Int) : List Datum :=
  format.layout.decode bytes offset

end Format

/-- Reads a text as a format and decodes by it. -/
def unpack (limits : Limits) (source : String) (bytes : Payload) (offset : Int) :
    Except FormatError (List Datum) := do
  let format ← Format.ofText limits source
  .ok (format.decode bytes offset)

/-- Writing data by a format is not supported, whatever they are. -/
def pack (_source : String) (_values : List Datum) : Except FormatError Payload :=
  .error (.unsupported "pack")

end BinaryLayout
