import Ralix.Dtb.Blob

/-!
# The shell

`user_shell` of `src/user/shell.rs`. The shell reads one byte at a time from standard input, and what it
does with a byte is a turn of its inner loop: it writes to standard output, and goes on with another
line. `submitted` only records the lines that were printed after `String: `.

`saw_cr` is meant for a line feed after a carriage return, which is to end no second line. But the end
of a line leaves the inner loop, and the flag starts anew with the next prompt. So it is never set
when a byte is read (`turn_sawCr`), and both bytes end a line (`length_submitted`).
-/

namespace Ralix.User

open Dtb (Bytes ascii)

/-- The bytes of a string. -/
def utf8 (s : List Char) : Bytes := s.flatMap String.utf8EncodeChar

/-- The shell at the start of its inner loop. -/
structure Shell where
  /-- The characters of `line`. -/
  line : List Char
  sawCr : Bool
  /-- The lines that were printed after `String: `. -/
  submitted : List (List Char)

namespace Shell

/-- The start of the outer loop: the prompt. -/
def prompt (s : Shell) : List Bytes × Shell := ([ascii "$ "], { s with sawCr := false })

/-- The end of a line, and the start of the next turn of the outer loop. -/
def submit (s : Shell) : List Bytes × Shell :=
  let (writes, next) := prompt { s with line := [], submitted := s.submitted ++ [s.line] }
  ([ascii "\n", ascii "String: ", utf8 s.line, ascii "\n"] ++ writes, next)

/-- The inner loop after the handling of `saw_cr`. -/
def accept (s : Shell) (b : UInt8) : List Bytes × Shell :=
  if b = 0x0a ∨ b = 0x0d then s.submit
  else if b = 0x08 ∨ b = 0x7f then
    if s.line ≠ [] then ([[0x08, 0x20, 0x08]], { s with line := s.line.dropLast }) else ([], s)
  else if (utf8 s.line).length < 128 then
    ([[b]], { s with line := s.line ++ [Char.ofUInt8 b] })
  else ([], s)

/-- A turn of the inner loop, with a byte that was read: what it writes, and the shell after it. -/
def turn (s : Shell) (b : UInt8) : List Bytes × Shell :=
  if b = 0x0d then accept { s with sawCr := true } 0x0a
  else if b = 0x0a then
    if s.sawCr then ([], { s with sawCr := false }) else s.accept b
  else accept { s with sawCr := false } b

/-- A turn for each byte. -/
def feed : Shell → List UInt8 → List Bytes × Shell
  | s, [] => ([], s)
  | s, b :: bytes =>
    let (first, s) := s.turn b
    let (rest, s) := s.feed bytes
    (first ++ rest, s)

/-- The shell at its first prompt. -/
def start : Shell := (prompt ⟨[], false, []⟩).2

end Shell

/-- The bytes that end a line. -/
def endsLine (b : UInt8) : Bool := b = 0x0a || b = 0x0d

namespace Shell

variable {s : Shell}

/-- Bytes after bytes. -/
theorem feed_append (s : Shell) (bytes bytes' : List UInt8) :
    s.feed (bytes ++ bytes') =
      ((s.feed bytes).1 ++ ((s.feed bytes).2.feed bytes').1, ((s.feed bytes).2.feed bytes').2) := by
  induction bytes generalizing s with
  | nil => rfl
  | cons b bytes ih => simp only [List.cons_append, feed, ih, List.append_assoc]

/-- One more byte. -/
theorem feed_concat (s : Shell) (bytes : List UInt8) (b : UInt8) :
    s.feed (bytes ++ [b]) =
      ((s.feed bytes).1 ++ ((s.feed bytes).2.turn b).1, ((s.feed bytes).2.turn b).2) := by
  rw [feed_append]
  simp only [feed, List.append_nil]

/-- A byte that ends a line submits it. -/
theorem turn_end (h : s.sawCr = false) {b : UInt8} (hb : endsLine b = true) : s.turn b = s.submit := by
  rw [endsLine, Bool.or_eq_true, decide_eq_true_iff, decide_eq_true_iff] at hb
  rcases hb with rfl | rfl
  · show (if s.sawCr then ([], { s with sawCr := false }) else s.submit) = s.submit
    rw [h]
    rfl
  · rfl

/-- Any other byte goes to the line. -/
theorem turn_other (s : Shell) {b : UInt8} (hb : endsLine b = false) :
    s.turn b = accept { s with sawCr := false } b := by
  rw [endsLine, Bool.or_eq_false_iff, decide_eq_false_iff_not, decide_eq_false_iff_not] at hb
  rw [turn, if_neg hb.2, if_neg hb.1]

/-- It erases a character, or joins the line. -/
theorem accept_of_not_end (s : Shell) {b : UInt8} (hb : endsLine b = false) :
    s.accept b =
      if b = 0x08 ∨ b = 0x7f then
        if s.line ≠ [] then ([[0x08, 0x20, 0x08]], { s with line := s.line.dropLast }) else ([], s)
      else if (utf8 s.line).length < 128 then
        ([[b]], { s with line := s.line ++ [Char.ofUInt8 b] })
      else ([], s) := by
  rw [endsLine, Bool.or_eq_false_iff, decide_eq_false_iff_not, decide_eq_false_iff_not] at hb
  exact if_neg (not_or.mpr hb)

/-- It submits no line. -/
theorem accept_other (s : Shell) {b : UInt8} (hb : endsLine b = false) :
    (s.accept b).2.sawCr = s.sawCr ∧ (s.accept b).2.submitted = s.submitted := by
  rw [s.accept_of_not_end hb]
  split
  · split
    · exact ⟨rfl, rfl⟩
    · exact ⟨rfl, rfl⟩
  · split
    · exact ⟨rfl, rfl⟩
    · exact ⟨rfl, rfl⟩

/-- The flag is never set when a byte is read. -/
theorem turn_sawCr (h : s.sawCr = false) (b : UInt8) : (s.turn b).2.sawCr = false := by
  match hb : endsLine b with
  | true => rw [turn_end h hb]; rfl
  | false => rw [turn_other s hb]; exact (accept_other _ hb).1

/-- Each byte that ends a line submits one. -/
theorem length_submitted (h : s.sawCr = false) (bytes : List UInt8) :
    (s.feed bytes).2.submitted.length = s.submitted.length + bytes.countP endsLine := by
  induction bytes generalizing s with
  | nil => rfl
  | cons b bytes ih =>
    show ((s.turn b).2.feed bytes).2.submitted.length = _
    rw [ih (turn_sawCr h b), List.countP_cons]
    match hb : endsLine b with
    | true =>
      have hlen : (s.turn b).2.submitted.length = s.submitted.length + 1 := by
        rw [turn_end h hb]
        exact List.length_append
      rw [hlen, if_pos rfl]
      omega
    | false =>
      rw [turn_other s hb, (accept_other _ hb).2, if_neg Bool.false_ne_true]
      rfl

end Shell

end Ralix.User
