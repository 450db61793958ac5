import BinaryLayout.Format

/-!
# A cache of formats

A cache reads each text once and hands out the same format for it from then on. It keeps the
formats that were asked for first, up to its capacity; when it is full, a format for another text
is made anew each time and not kept. A text that is no format changes nothing.

Every format that is made gets a serial number, so that it can be told whether two requests were
answered with the same one. Clearing the cache starts no new numbering.
-/

namespace BinaryLayout

/-- A format that has been made, with the number that tells it from all others. -/
structure SharedFormat where
  serial : Nat
  format : Format
deriving DecidableEq, Repr

/-- The formats kept, and what decides about the next one. -/
structure FormatCache where
  /-- The limits under which every text is read. -/
  limits : Limits := {}
  /-- How many formats are kept at most. -/
  capacity : Nat := 256
  /-- The formats kept, in the order in which they were asked for. -/
  kept : List SharedFormat := []
  /-- How many formats have been made. -/
  made : Nat := 0
deriving DecidableEq, Repr

namespace FormatCache

/-- The number of formats kept. -/
def size (cache : FormatCache) : Nat := cache.kept.length

/-- The format kept for a text. -/
def get? (cache : FormatCache) (source : String) : Option SharedFormat :=
  cache.kept.find? fun shared => shared.format.source == source

/-- Keeps a format if there is room for it. -/
def keep (cache : FormatCache) (shared : SharedFormat) : FormatCache :=
  if cache.capacity ≤ cache.size then cache else { cache with kept := cache.kept ++ [shared] }

/-- The format for a text: the one that is kept, or one made now and kept if there is room. -/
def request (cache : FormatCache) (source : String) :
    Except FormatError SharedFormat × FormatCache :=
  match cache.get? source with
  | some shared => (.ok shared, cache)
  | none =>
    match Format.ofText cache.limits source with
    | .error e => (.error e, cache)
    | .ok format =>
      let shared : SharedFormat := ⟨cache.made, format⟩
      (.ok shared, { cache with made := cache.made + 1 }.keep shared)

/-- Decodes by the format for a text. -/
def unpack (cache : FormatCache) (source : String) (bytes : Payload) (offset : Int) :
    Except FormatError (List Datum) × FormatCache :=
  let (answer, next) := cache.request source
  (answer.map fun shared => shared.format.decode bytes offset, next)

/-- Drops all formats. Those handed out before stay as they are. -/
def clear (cache : FormatCache) : FormatCache := { cache with kept := [] }

end FormatCache

end BinaryLayout
