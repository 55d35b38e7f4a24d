import Myriel.Platform

/-! The fixed-size buffer of the asynchronous log. The array and the position of
`m_cur` in it are kept apart, so the bytes left behind by `reset` stay visible. -/
namespace Myriel

def LargeBuffer : Nat := 4096 * 1000

structure FixBuffer (SIZE : Nat) where
  m_data : List Char
  m_cur : Nat
  size_data : m_data.length = SIZE
  cur_le : m_cur ≤ SIZE

namespace FixBuffer

/-- The zero-initialised array with `m_cur` at its start. -/
def new (SIZE : Nat) : FixBuffer SIZE :=
  ⟨List.replicate SIZE '\x00', 0, List.length_replicate, Nat.zero_le _⟩

/-- `len` bytes read from `buf`; past the text a C string has its terminator. -/
def bytes (buf : Text) (len : Nat) : Text := (buf ++ List.replicate len '\x00').take len

theorem bytes_length (buf : Text) (len : Nat) : (bytes buf len).length = len := by
  simp [bytes]

theorem bytes_eq_take (buf : Text) (len : Nat) (within : len ≤ buf.length) :
    bytes buf len = buf.take len := by
  simp [bytes,List.take_append_of_le_length within]

def length (b : FixBuffer SIZE) : Nat := b.m_cur

def avail (b : FixBuffer SIZE) : Nat := SIZE - b.m_cur

def append (b : FixBuffer SIZE) (buf : Text) (len : Nat) : FixBuffer SIZE :=
  if room : b.avail > len then
    { m_data := b.m_data.take b.m_cur ++ bytes buf len ++ b.m_data.drop (b.m_cur + len)
      m_cur := b.m_cur + len
      size_data := by
        have := b.size_data
        simp only [avail] at room
        simp only [List.length_append,List.length_take,List.length_drop,bytes_length]
        omega
      cur_le := by simp only [avail] at room; omega }
  else b

def reset (b : FixBuffer SIZE) : FixBuffer SIZE := { b with m_cur := 0, cur_le := Nat.zero_le _ }

/-- What `write(data(), length())` puts out. -/
def contents (b : FixBuffer SIZE) : Text := b.m_data.take b.length

@[simp] theorem new_contents : (new SIZE).contents = [] := rfl

theorem contents_empty (b : FixBuffer SIZE) (empty : b.m_cur = 0) : b.contents = [] := by
  simp [contents,length,empty]

theorem append_full (b : FixBuffer SIZE) (buf : Text) (len : Nat) (full : b.avail ≤ len) :
    b.append buf len = b := by
  simp [append,Nat.not_lt.mpr full]

/-- A stored message follows the old contents; bytes of an earlier use of the
array lie behind the new position. -/
theorem append_contents (b : FixBuffer SIZE) (buf : Text) (len : Nat)
    (room : len < b.avail) (within : len ≤ buf.length) :
    (b.append buf len).contents = b.contents ++ buf.take len := by
  have size := b.size_data
  have cur := b.cur_le
  have kept : (b.m_data.take b.m_cur ++ bytes buf len).length = b.m_cur + len := by
    simp only [List.length_append,List.length_take,bytes_length]; omega
  simp only [append,room,↓reduceDIte,contents,length]
  rw [List.take_left' kept,bytes_eq_take buf len within]

end FixBuffer

end Myriel
