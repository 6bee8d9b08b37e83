import TierTree.Proofs.Log.Frame

/-!
Files that other hands may have written. Whatever bytes a file holds, the part
that reading takes in consists of whole lines; what is appended to them is read
as well, and a line that breaks off is not.
-/

namespace TierTree.Frame

variable {bytes more line left : List UInt8} {entries further : List LogEntry} {e : LogEntry}

/-- Bytes that hold no line feed. -/
def Feedless (bytes : List UInt8) : Prop := ∀ b ∈ bytes, b ≠ 10

theorem feedless_nil : Feedless [] := by
  intro b hMem
  cases hMem

/-- Whole lines that stand for entries. They need not be the lines that are
written for these entries: the checksum may have more zeros in front, and the
JSON may be laid out in another way. -/
inductive Lines : List UInt8 → List LogEntry → Prop where
  | nil : Lines [] []
  | cons {line rest : List UInt8} {e : LogEntry} {entries : List LogEntry} :
      Feedless line → decode? line = some e → Lines rest entries →
      Lines (line ++ 10 :: rest) (e :: entries)

/-- Reading goes on behind a line that stands for an entry. -/
theorem readAll_line (hLine : Feedless line) (hEntry : decode? line = some e)
    (rest : List UInt8) :
    readAll (line ++ 10 :: rest) =
      (e :: (readAll rest).1, line.length + 1 + (readAll rest).2) := by
  rw [readAll, scan_line hLine, scan]
  simp [hEntry, readAll]

/-- A line that breaks off is not read. -/
theorem readAll_torn (h : Feedless left) : readAll left = ([], 0) := by
  have hScan : scan [] (left ++ []) = scan (left.reverse ++ []) [] := scan_line h
  rw [List.append_nil] at hScan
  exact hScan

/-- Reading takes whole lines in and goes on behind them. -/
theorem Lines.readAll_append (h : Lines bytes entries) (rest : List UInt8) :
    readAll (bytes ++ rest) =
      (entries ++ (readAll rest).1, bytes.length + (readAll rest).2) := by
  induction h with
  | nil => simp
  | cons hLine hEntry _ ih =>
      rw [List.append_assoc, List.cons_append, readAll_line hLine hEntry, ih, List.cons_append,
        List.length_append, List.length_cons]
      simp only [Prod.mk.injEq, true_and]
      omega

theorem Lines.readAll_eq (h : Lines bytes entries) : readAll bytes = (entries, bytes.length) := by
  have hRead := h.readAll_append []
  rwa [List.append_nil, readAll_torn feedless_nil, List.append_nil, Nat.add_zero] at hRead

theorem Lines.append (h : Lines bytes entries) (hMore : Lines more further) :
    Lines (bytes ++ more) (entries ++ further) := by
  induction h with
  | nil => exact hMore
  | cons hLine hEntry _ ih =>
      rw [List.append_assoc]
      exact .cons hLine hEntry ih

theorem lines_encode (e : LogEntry) : Lines (encode e) [e] := by
  rw [encode, encodeText_eq]
  exact .cons (noFeed_lineChars e) (decode?_encode e) .nil

theorem lines_encodeAll (entries : List LogEntry) : Lines (encodeAll entries) entries := by
  induction entries with
  | nil => exact .nil
  | cons e rest ih => exact (lines_encode e).append ih

theorem lines_scan (hLine : Feedless line) (rest : List UInt8) :
    Lines ((line.reverse ++ rest).take (scan line rest).2) (scan line rest).1 := by
  induction rest generalizing line with
  | nil => exact .nil
  | cons b rest ih =>
      rw [scan]
      split
      next hFeed =>
        subst hFeed
        split
        next => exact .nil
        next e hEntry =>
          have hRest := @ih [] feedless_nil
          have hTake : (line.reverse ++ 10 :: rest).take (line.length + 1 + (scan [] rest).2) =
              line.reverse ++ 10 :: rest.take (scan [] rest).2 := by
            rw [Nat.add_assoc, Nat.add_comm 1, ← line.length_reverse, List.take_length_add_append,
              List.take_succ_cons]
          rw [hTake]
          exact .cons (fun c hMem => hLine c (List.mem_reverse.mp hMem)) hEntry hRest
      next hOther =>
        have hLonger : Feedless (b :: line) := by
          intro c hMem
          rcases List.mem_cons.mp hMem with rfl | hBefore
          · exact hOther
          · exact hLine c hBefore
        have hRest := ih hLonger
        rwa [List.reverse_cons, List.append_assoc] at hRest

/-- What reading takes in of a file are whole lines, whatever the file holds. -/
theorem lines_readAll (bytes : List UInt8) :
    Lines (bytes.take (readAll bytes).2) (readAll bytes).1 :=
  lines_scan feedless_nil bytes

theorem scan_le (line rest : List UInt8) : (scan line rest).2 ≤ line.length + rest.length := by
  induction rest generalizing line with
  | nil => exact Nat.zero_le _
  | cons b rest ih =>
      rw [scan, List.length_cons]
      split
      next hFeed =>
        have hRest := ih []
        rw [List.length_nil] at hRest
        split
        next => exact Nat.zero_le _
        next e hEntry =>
          simp only
          omega
      next hOther =>
        have hRest := ih (b :: line)
        rw [List.length_cons] at hRest
        omega

/-- Reading takes in no more than the file holds. -/
theorem readAll_le (bytes : List UInt8) : (readAll bytes).2 ≤ bytes.length := by
  have hScan := scan_le [] bytes
  rwa [List.length_nil, Nat.zero_add] at hScan

/-- A part of a line that does not reach its end breaks off before the line
feed. -/
theorem feedless_take {e : LogEntry} {size : Nat} (h : size < (encode e).length) :
    Feedless ((encode e).take size) := by
  intro b hMem
  rw [encode, encodeText_eq, List.length_append, List.length_singleton] at h
  rw [encode, encodeText_eq, List.take_append_of_le_length (Nat.le_of_lt_succ h)] at hMem
  exact noFeed_lineChars e b (List.mem_of_mem_take hMem)

theorem length_encode_pos (e : LogEntry) : 0 < (encode e).length := by
  rw [encode, encodeText_eq, List.length_append, List.length_singleton]
  exact Nat.succ_pos _

theorem feedless_half (e : LogEntry) :
    Feedless ((encode e).take ((encode e).length / 2)) :=
  feedless_take (Nat.div_lt_self (length_encode_pos e) (by decide))

end TierTree.Frame
