import WasmMachine.Binary.Section

/-!
# The binary form of modules

A module is a header and a row of sections that reaches to the end of the bytes.
`Module.decode` reads the sections in order, each by itself, and builds the module from what
they hold.
-/

namespace WasmMachine

namespace Decoder

theorem length_lt_of_framed {s t : Input} {p : UInt8 × Input} (h : framed.run s = .ok (p, t)) :
    t.bytes.length < s.bytes.length := by
  rw [framed, run_bind] at h
  split at h
  · cases h
  · next b u hb =>
    exact Nat.lt_of_le_of_lt (Decoder.reaches _ h).length_le (length_lt_of_byte hb)

/-- The four bytes that a module begins with. -/
def magic : List UInt8 := [0x00, 0x61, 0x73, 0x6d]

/-- The number of the format's version. -/
def version : UInt32 := 1

/-- The header: the magic bytes and the version. -/
def header : Decoder Unit := do
  let got ← take 4
  if got ≠ magic then
    fail (.badMagic (ofLeBytes got.reverse).toUInt32)
  else
    let v := (← word 4).toUInt32
    if v ≠ version then
      fail (.unexpectedVersion v)

/-- Read sections to the end of the input and add them to those before it. -/
def sectionsFrom (acc : Sections) (s : Input) : Except DecodeError Sections :=
  if s.bytes.isEmpty then .ok acc
  else
    match _h : framed.run s with
    | .error e => .error e
    | .ok ((id, payload), t) =>
      match Section.decode id payload with
      | .error e => .error e
      | .ok contents => sectionsFrom (acc.add contents) t
termination_by s.bytes.length
decreasing_by exact length_lt_of_framed _h

end Decoder

/-- The module that a byte string encodes. -/
def Module.decode (bytes : List UInt8) : Except DecodeError Module := do
  let ((), rest) ← Decoder.header.run ⟨0, bytes⟩
  let sections ← Decoder.sectionsFrom {} rest
  match sections.build with
  | .ok m => return m
  | .error e => throw (.module e)

end WasmMachine
