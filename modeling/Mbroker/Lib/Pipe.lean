import Mbroker.Lib.Memory

/-!
# Byte pipes

A pipe is the list of the bytes written to it and not read yet. A read asks for `n` bytes and gets those that
are there, up to `n`; nothing in a pipe says where one write ended and the next began.
-/

namespace Mbroker.Lib

/-! ## Reads -/

/-- The memory after `read(fd, m + lo, n)`. What it read leaves the pipe: `pipe.drop n` is left. -/
def readPipe (m : Mem) (lo n : Nat) (pipe : List UInt8) : Mem :=
  m.copy lo (Mem.ofList pipe) (min n pipe.length)

variable {m : Mem} {lo n : Nat} {r pipe : List UInt8} {rs : List (List UInt8)}

theorem readPipe_apply {i : Nat} (hn : i < n) (hi : i < pipe.length) :
    readPipe m lo n pipe (lo + i) = pipe[i] := by
  rw [readPipe, Mem.copy_apply_of_mem (by omega) (by omega), Nat.add_sub_cancel_left]
  simp [Mem.ofList, hi]

/-- The buffer starts with the bytes of the first write, if it asks for as many. -/
theorem bytes_readPipe (h : r.length ≤ n) (tail : List UInt8) :
    ((readPipe m lo n (r ++ tail)).ptr lo).bytes r.length = r := by
  apply List.ext_getElem (Mem.length_bytes _ _)
  intro i h₁ h₂
  have hi : i < (r ++ tail).length := by rw [List.length_append]; omega
  have hget : readPipe m lo n (r ++ tail) (lo + i) = (r ++ tail)[i] := readPipe_apply (by omega) hi
  simp only [Mem.bytes, List.getElem_map, List.getElem_range, Mem.ptr_apply, hget, List.getElem_append_left h₂]

/-! ## Frames -/

/-- A read that asks for `n` bytes takes exactly the first of the writes that wait: it is `n` bytes long, or
nothing else waits. -/
def Framed (n : Nat) : List (List UInt8) → Prop
  | [] => True
  | r :: rs => r.length ≤ n ∧ (r.length = n ∨ rs.flatten = [])

theorem Framed.bytes (h : Framed n (r :: rs)) :
    ((readPipe m lo n (r :: rs).flatten).ptr lo).bytes r.length = r := by
  rw [List.flatten_cons]
  exact bytes_readPipe h.1 _

theorem Framed.rest (h : Framed n (r :: rs)) : (r :: rs).flatten.drop n = rs.flatten := by
  obtain ⟨hle, hlen | hnil⟩ := h
  · rw [List.flatten_cons, ← hlen, List.drop_left]
  · rw [List.flatten_cons, hnil, List.append_nil]
    exact List.drop_eq_nil_of_le hle

end Mbroker.Lib
