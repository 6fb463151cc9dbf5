import Mathlib.Data.List.Basic

namespace FileWindow

variable {α : Type}

/-- A part of a file in memory: where the next read begins, the part, and an index into it. -/
structure Window (α : Type) where
  fpos : Nat
  buf : List α
  page : Nat

/-- The window behind a read of so much from a place. -/
def load (file : List α) (size base page : Nat) : Window α :=
  ⟨base + ((file.drop base).take size).length, (file.drop base).take size, page⟩

/-- The window is a part of the file, and its index stands for a place in the file. -/
structure At (file : List α) (size : Nat) (w : Window α) (p : Nat) : Prop where
  read : ∃ base, base ≤ file.length ∧ w.buf = (file.drop base).take size ∧ w.fpos = base + w.buf.length ∧
    base + w.page = p
  within : w.page ≤ w.buf.length

variable {file : List α} {size p q base page : Nat} {w : Window α}

theorem length_part (file : List α) (size base : Nat) :
    ((file.drop base).take size).length = min size (file.length - base) := by
  rw [List.length_take, List.length_drop]

theorem At.fpos_le (h : At file size w p) : w.fpos ≤ file.length := by
  obtain ⟨base, hbase, hbuf, hfpos, -⟩ := h.read
  have hlength := length_part file size base
  rw [← hbuf] at hlength
  omega

theorem At.le (h : At file size w p) : p ≤ file.length := by
  obtain ⟨base, hbase, hbuf, hfpos, hp⟩ := h.read
  have hfits := h.fpos_le
  have hwithin := h.within
  omega

/-- What the index stands before is what the place stands before. -/
theorem At.get (h : At file size w p) (hpage : w.page < w.buf.length) : w.buf[w.page]? = file[p]? := by
  obtain ⟨base, hbase, hbuf, hfpos, hp⟩ := h.read
  have hlength := length_part file size base
  rw [← hbuf] at hlength
  have hsize : w.page < size := by omega
  rw [hbuf, List.getElem?_take_of_lt hsize, List.getElem?_drop, hp]

/-- At the end of the window the next read goes on. -/
theorem At.fpos_eq (h : At file size w p) (hpage : w.page = w.buf.length) : w.fpos = p := by
  obtain ⟨base, hbase, hbuf, hfpos, hp⟩ := h.read
  omega

theorem At.next (h : At file size w p) (hpage : w.page < w.buf.length) :
    At file size { w with page := w.page + 1 } (p + 1) := by
  obtain ⟨base, hbase, hbuf, hfpos, hp⟩ := h.read
  exact ⟨⟨base, hbase, hbuf, hfpos, by dsimp only; omega⟩, hpage⟩

theorem At.back (h : At file size w p) (hpage : 0 < w.page) :
    At file size { w with page := w.page - 1 } (p - 1) ∧ w.page - 1 < w.buf.length := by
  obtain ⟨base, hbase, hbuf, hfpos, hp⟩ := h.read
  have hwithin := h.within
  exact ⟨⟨⟨base, hbase, hbuf, hfpos, by dsimp only; omega⟩, by dsimp only; omega⟩, by omega⟩

theorem at_load (hbase : base ≤ file.length) (hsize : page ≤ size) (hfile : base + page ≤ file.length) :
    At file size (load file size base page) (base + page) := by
  have hlength := length_part file size base
  exact ⟨⟨base, hbase, rfl, rfl, rfl⟩, by dsimp only [load]; omega⟩

theorem load_nonempty (hsize : 0 < size) (hbase : base < file.length) :
    0 < (load file size base page).buf.length := by
  have hlength := length_part file size base
  dsimp only [load]
  omega

/-- The start of the window, for an index at it. -/
theorem At.start (h : At file size w p) (hpage : w.page = 0) : w.fpos = p + w.buf.length := by
  obtain ⟨base, hbase, hbuf, hfpos, hp⟩ := h.read
  omega

/-- The end of the window with the index there. -/
theorem At.toEnd (h : At file size w p) (hq : w.fpos = q) :
    At file size { w with page := w.buf.length } q := by
  obtain ⟨base, hbase, hbuf, hfpos, hp⟩ := h.read
  exact ⟨⟨base, hbase, hbuf, hfpos, hfpos.symm.trans hq⟩, Nat.le_refl _⟩

theorem At.toStart (h : At file size w p) (hfpos : w.fpos ≤ w.buf.length) :
    At file size { w with page := 0 } 0 := by
  obtain ⟨base, hbase, hbuf, hread, hp⟩ := h.read
  exact ⟨⟨base, hbase, hbuf, hread, by dsimp only; omega⟩, Nat.zero_le _⟩

/-- A window that ends in front of the file's end is a full one. -/
theorem At.full (h : At file size w p) (hfpos : w.fpos < file.length) : size ≤ file.length := by
  obtain ⟨base, hbase, hbuf, hread, -⟩ := h.read
  have hlength := length_part file size base
  rw [← hbuf] at hlength
  omega

end FileWindow
