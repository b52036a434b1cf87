import LetLang.Json.Printer

/-!
# Buffers of JSON text

The printer gathers its text in a buffer, which is described by the number of bytes it holds and the
number it has room for. Room is handed out in fixed sizes. A small buffer that becomes too small is
doubled, a large one grows by about a quarter at a time, and a piece that needs more than twice the
room is given just what it needs.

When a buffer is full is the printer's own affair. No property of encoded trees depends on it.
-/
namespace LetLang.Json

/-! ## Room -/

/-- The sizes up to 32 KiB in which room is handed out. -/
def roomSizes : List Nat :=
  [8, 16, 24, 32, 48, 64, 80, 96, 112, 128, 144, 160, 176, 192, 208, 224, 240, 256, 288, 320, 352,
    384, 416, 448, 480, 512, 576, 640, 704, 768, 896, 1024, 1152, 1280, 1408, 1536, 1792, 2048,
    2304, 2688, 3072, 3200, 3456, 4096, 4864, 5376, 6144, 6528, 6784, 6912, 8192, 9472, 9728,
    10240, 10880, 12288, 13568, 14336, 16384, 18432, 19072, 20480, 21760, 24576, 27264, 28672,
    32768]

/-- The least size that holds `n` bytes. Above 32 KiB the sizes are the multiples of 8 KiB. -/
def roomSize (n : Nat) : Nat :=
  match roomSizes.find? (n ≤ ·) with
  | some size => size
  | none => (n + 8191) / 8192 * 8192

theorem le_roomSize (n : Nat) : n ≤ roomSize n := by
  unfold roomSize
  split
  · rename_i size h
    have hs := List.find?_some h
    simpa using hs
  · omega

/-- Adds a quarter of the room and 192 bytes until `need` bytes fit. -/
def stretch (room need : Nat) : Nat :=
  if need ≤ room then room else stretch (room + (room + 768) / 4) need
termination_by need - room

theorem le_stretch (room need : Nat) : need ≤ stretch room need := by
  fun_induction stretch room need with
  | case1 room h => exact h
  | case2 room _ ih => exact ih

/-- The room of a buffer with room for `room` bytes once it has to hold `need`. -/
def roomFor (room need : Nat) : Nat :=
  if need ≤ room then room
  else if 2 * room < need then roomSize need
  else if room < 256 then roomSize (2 * room)
  else roomSize (stretch room need)

theorem le_roomFor (room need : Nat) : need ≤ roomFor room need := by
  unfold roomFor
  split
  · assumption
  · split
    · exact le_roomSize need
    · split
      · have h := le_roomSize (2 * room)
        omega
      · exact Nat.le_trans (le_stretch room need) (le_roomSize _)

theorem room_le_roomFor (room need : Nat) : room ≤ roomFor room need := by
  by_cases h : need ≤ room
  · simp [roomFor, h]
  · have := le_roomFor room need
    omega

/-! ## Buffers -/

structure Buffer where
  used : Nat
  room : Nat
  used_le_room : used ≤ room

namespace Buffer

def empty : Buffer :=
  ⟨0, 0, Nat.le_refl 0⟩

/-- Makes room for `n` more bytes. -/
def reserve (b : Buffer) (n : Nat) : Buffer :=
  ⟨b.used, roomFor b.room (b.used + n), Nat.le_trans b.used_le_room (room_le_roomFor _ _)⟩

/-- Takes up a piece of `n` bytes. -/
def put (b : Buffer) (n : Nat) : Buffer :=
  ⟨b.used + n, roomFor b.room (b.used + n), le_roomFor _ _⟩

/-- Takes up characters one by one. -/
def putChars (b : Buffer) (cs : List Char) : Buffer :=
  cs.foldl (fun b c => b.put c.utf8Size) b

/-- Takes up a text in quotes. Room is made for the text as it stands, and for its escapes when they
come. -/
def putText (b : Buffer) (s : Text) : Buffer :=
  (b.reserve (s.byteCount + 2)).putChars (writeText s [])

/-- Whether more than three quarters of the room is used. -/
def isNearlyFull (b : Buffer) : Bool :=
  3 * b.room < 4 * b.used

end Buffer

end LetLang.Json
