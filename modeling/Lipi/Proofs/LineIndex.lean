import Lipi.LineIndex
import Lipi.Proofs.Token.Positions

set_option autoImplicit false

/-! # Positions by search and by scanning

A `LineIndex` finds the line of a byte by a search among the starts of the lines and the column by
counting characters from there. The tokens of a text get their positions in another way, by scanning
the text in front of them. **Both ways agree** (`position_scans`): the line of a byte is one more
than the newlines in front of it, and its column, if no character goes on over it, is one more than
the characters since the last of these newlines.

The search is described by what it finds: the lines that start at the byte or before it are those
up to the one whose number is given. As lines start one behind the other, any search for the last of
them finds the same. A position that is scanned moves on with every character, so that different
ends of characters have different positions, and so have different tokens.
-/

namespace Lipi

/-! ## Bytes and characters -/

/-- The characters of a text that end within its first `n` bytes. -/
def charsWithin : Nat → List Char → List Char
  | _, [] => []
  | n, c :: cs => if c.utf8Size ≤ n then c :: charsWithin (n - c.utf8Size) cs else []

/-- No character of the text goes on over its first `n` bytes. -/
def IsBoundary (cs : List Char) (n : Nat) : Prop :=
  ∃ before behind, cs = before ++ behind ∧ byteLength before = n

theorem byteLength_toList (text : String) : byteLength text.toList = text.utf8ByteSize := by
  have hlist : ∀ cs : List Char, byteLength cs = (String.ofList cs).utf8ByteSize := by
    intro cs
    induction cs with
    | nil => rfl
    | cons c cs ih =>
        have hcons : String.ofList (c :: cs) = String.ofList [c] ++ String.ofList cs := by
          rw [← String.ofList_append]
          rfl
        have hone : (String.ofList [c]).utf8ByteSize = c.utf8Size :=
          String.utf8ByteSize_singleton
        rw [hcons, String.utf8ByteSize_append, hone, byteLength_cons, ih]
  rw [hlist, String.ofList_toList]

/-- At the end of a character the characters in front of it end within the bytes in front of it,
and no others. -/
theorem charsWithin_append (before behind : List Char) :
    charsWithin (byteLength before) (before ++ behind) = before := by
  induction before with
  | nil =>
      cases behind with
      | nil => rfl
      | cons c cs => exact if_neg (Nat.not_le_of_lt c.utf8Size_pos)
  | cons c cs ih =>
      rw [List.cons_append, charsWithin, byteLength_cons, if_pos (Nat.le_add_right _ _),
        Nat.add_sub_cancel_left, ih]

theorem utf8Size_newline : '\n'.utf8Size = 1 := by
  decide

/-! ## Positions behind texts -/

namespace Position

/-- The position behind a text, by counting. -/
theorem start_after (cs : List Char) : start.after cs =
    ⟨1 + cs.count '\n', 1 + (cs.reverse.takeWhile (· ≠ '\n')).length⟩ := by
  induction cs using List.reverseRecOn with
  | nil => rfl
  | append_singleton cs c ih =>
      rw [after_append, ih, after_cons, after_nil, List.count_append, List.reverse_append]
      by_cases hline : c = '\n'
      · subst hline
        rfl
      · have hcount : [c].count '\n' = 0 := List.count_eq_zero.mpr (by simpa using Ne.symm hline)
        rw [advance, if_neg hline, hcount, List.reverse_singleton, List.singleton_append,
          List.takeWhile_cons_of_pos (by simpa using hline), List.length_cons]
        rfl

end Position

/-! ## The search -/

namespace LineIndex

/-- All lines, first to last. -/
def lines (index : LineIndex) : List Line := index.first :: index.others

theorem linesFrom_newline (offset : Nat) (cs : List Char) :
    linesFrom offset ('\n' :: cs) = ⟨offset + 1, cs⟩ :: linesFrom (offset + 1) cs := by
  rw [linesFrom, if_pos rfl, utf8Size_newline]

theorem linesFrom_cons (offset : Nat) {c : Char} (hc : c ≠ '\n') (cs : List Char) :
    linesFrom offset (c :: cs) = linesFrom (offset + c.utf8Size) cs := by
  rw [linesFrom, if_neg hc]

/-- Lines start behind the newline in front of them. -/
theorem lt_start {offset : Nat} {cs : List Char} {l : Line} (hl : l ∈ linesFrom offset cs) :
    offset < l.start := by
  induction cs generalizing offset with
  | nil => cases hl
  | cons c cs ih =>
      by_cases hc : c = '\n'
      · subst hc
        rw [linesFrom_newline] at hl
        rcases List.mem_cons.mp hl with rfl | hl
        · exact Nat.lt_succ_self _
        · exact (Nat.lt_succ_self _).trans (ih hl)
      · rw [linesFrom_cons offset hc] at hl
        exact (Nat.le_add_right _ _).trans_lt (ih hl)

/-- Lines start one behind the other. -/
theorem linesFrom_sorted (offset : Nat) (cs : List Char) :
    (linesFrom offset cs).Pairwise fun l l' => l.start < l'.start := by
  induction cs generalizing offset with
  | nil => exact .nil
  | cons c cs ih =>
      by_cases hc : c = '\n'
      · subst hc
        rw [linesFrom_newline]
        exact .cons (fun l hl => lt_start hl) (ih _)
      · rw [linesFrom_cons offset hc]
        exact ih _

theorem lines_sorted (text : String) :
    (ofText text).lines.Pairwise fun l l' => l.start < l'.start :=
  .cons (fun _ hl => lt_start hl) (linesFrom_sorted 0 text.toList)

/-- The lines of a sorted list that start at a byte or before it are its first ones. -/
theorem start_le_iff {lines : List Line} (hsorted : lines.Pairwise fun l l' => l.start < l'.start)
    {n i : Nat} {l : Line} (hl : lines[i]? = some l) :
    l.start ≤ n ↔ i < (lines.takeWhile (·.start ≤ n)).length := by
  induction lines generalizing i with
  | nil => simp at hl
  | cons first others ih =>
      obtain ⟨hfirst, hothers⟩ := List.pairwise_cons.mp hsorted
      by_cases hle : first.start ≤ n
      · rw [List.takeWhile_cons_of_pos (by simpa using hle), List.length_cons]
        cases i with
        | zero =>
            cases hl
            exact iff_of_true hle (Nat.succ_pos _)
        | succ i => exact (ih hothers hl).trans Nat.succ_lt_succ_iff.symm
      · rw [List.takeWhile_cons_of_neg (by simpa using hle)]
        refine iff_of_false (fun hstart => hle ?_) (Nat.not_lt_zero _)
        cases i with
        | zero =>
            cases hl
            exact hstart
        | succ i => exact (hfirst l (List.mem_of_getElem? hl)).le.trans hstart

/-- No line starts at the byte in front of the text or before it. -/
theorem takeWhile_linesFrom_of_le {offset n : Nat} (hn : n ≤ offset) (cs : List Char) :
    (linesFrom offset cs).takeWhile (·.start ≤ n) = [] := by
  refine List.takeWhile_eq_nil_iff.mpr fun hpos => ?_
  have hstart := lt_start (List.getElem_mem hpos)
  simpa using hn.trans_lt hstart

/-- As many lines start at a byte or before it as there are newlines in front of it. -/
theorem length_passed (offset n : Nat) (cs : List Char) :
    ((linesFrom offset cs).takeWhile (·.start ≤ offset + n)).length =
      (charsWithin n cs).count '\n' := by
  induction cs generalizing offset n with
  | nil => rfl
  | cons c cs ih =>
      rw [charsWithin]
      by_cases hc : c = '\n'
      · subst hc
        rw [linesFrom_newline, utf8Size_newline]
        -- a newline is one byte, so it lies within the first `n` bytes unless there are none
        cases n with
        | zero => simp
        | succ n =>
            have hn : offset + (n + 1) = offset + 1 + n := by omega
            rw [List.takeWhile_cons_of_pos (by simp), if_pos (Nat.le_add_left 1 n),
              List.count_cons_self, List.length_cons, Nat.add_sub_cancel, ← ih (offset + 1) n, hn]
      · rw [linesFrom_cons offset hc]
        split
        next hfits =>
          have hn : offset + n = offset + c.utf8Size + (n - c.utf8Size) := by omega
          rw [List.count_cons_of_ne (Ne.symm (by simpa using Ne.symm hc)), ← ih, ← hn]
        next hfits =>
          -- the bytes end inside this character, and the next line starts behind it
          rw [takeWhile_linesFrom_of_le (by omega)]
          rfl

/-- A whole character is counted, and then the characters in the bytes behind it. -/
theorem charsIn?_cons (c : Char) (cs : List Char) (n : Nat) :
    charsIn? (c :: cs) (c.utf8Size + n) = (charsIn? cs n).map (· + 1) := by
  have hpos := c.utf8Size_pos
  have hsucc : c.utf8Size + n = c.utf8Size - 1 + n + 1 := by omega
  have hrest : c.utf8Size - 1 + n + 1 - c.utf8Size = n := by omega
  rw [hsucc, charsIn?, if_pos (by omega), hrest]

theorem charsIn?_append (before behind : List Char) :
    charsIn? (before ++ behind) (byteLength before) = some before.length := by
  induction before with
  | nil =>
      rw [byteLength_nil, charsIn?]
      rfl
  | cons c cs ih =>
      rw [List.cons_append, byteLength_cons, charsIn?_cons, ih]
      rfl

/-- The number of the last line of the list that starts at a byte or before it, and the column of
the byte in it. In front of the list stand `k` lines and the line `current`. -/
def locate (k : Nat) (current : Line) (others : List Line) (n : Nat) : Position :=
  let passed := others.takeWhile (·.start ≤ n)
  let line := passed.getLast?.getD current
  ⟨k + passed.length, (charsIn? line.rest (n - line.start)).getD (n - line.start) + 1⟩

theorem locate_cons {k n : Nat} {current next : Line} {others : List Line} (hle : next.start ≤ n) :
    locate k current (next :: others) n = locate (k + 1) next others n := by
  unfold locate
  rw [List.takeWhile_cons_of_pos (by simpa using hle)]
  have hlast : ∀ passed : List Line,
      (next :: passed).getLast?.getD current = passed.getLast?.getD next := by
    intro passed
    rw [List.getLast?_cons]
    rfl
  dsimp only
  rw [hlast, List.length_cons, Nat.add_right_comm, Nat.add_assoc]

/-- Scanning on from the middle of a line arrives at what the search finds. -/
theorem locate_append (k : Nat) (current : Line) {front before behind : List Char} {offset : Nat}
    (hrest : current.rest = front ++ (before ++ behind))
    (hoffset : offset = current.start + byteLength front) :
    locate k current (linesFrom offset (before ++ behind)) (offset + byteLength before) =
      Position.after ⟨k, front.length + 1⟩ before := by
  induction before generalizing k current front offset with
  | nil =>
      have hnone : (linesFrom offset ([] ++ behind)).takeWhile (·.start ≤ offset) = [] :=
        takeWhile_linesFrom_of_le (Nat.le_refl _) _
      have hdistance : offset - current.start = byteLength front := by omega
      have hcount : charsIn? current.rest (byteLength front) = some front.length := by
        rw [hrest, charsIn?_append]
      rw [byteLength_nil, Nat.add_zero, locate, hnone]
      show (⟨k + 0, (charsIn? current.rest (offset - current.start)).getD _ + 1⟩ : Position) = _
      rw [hdistance, hcount]
      rfl
  | cons c cs ih =>
      by_cases hc : c = '\n'
      · -- the scan goes on at the start of the next line, which the search passes
        subst hc
        have hbytes : offset + byteLength ('\n' :: cs) = offset + 1 + byteLength cs := by
          rw [byteLength_cons, utf8Size_newline, Nat.add_assoc]
        have hpassed : (⟨offset + 1, cs ++ behind⟩ : Line).start ≤ offset + 1 + byteLength cs :=
          Nat.le_add_right _ _
        rw [List.cons_append, linesFrom_newline, hbytes, locate_cons hpassed]
        exact ih (k + 1) ⟨offset + 1, cs ++ behind⟩ (List.nil_append _).symm rfl
      · have hbytes : offset + byteLength (c :: cs) = offset + c.utf8Size + byteLength cs := by
          rw [byteLength_cons, Nat.add_assoc]
        have hfront : byteLength (front ++ [c]) = byteLength front + c.utf8Size := by simp
        have hscan : Position.after ⟨k, front.length + 1⟩ (c :: cs) =
            Position.after ⟨k, (front ++ [c]).length + 1⟩ cs := by
          rw [Position.after_cons, Position.advance, if_neg hc, List.length_append]
          rfl
        rw [List.cons_append, linesFrom_cons offset hc, hbytes, hscan]
        refine ih k current ?_ ?_
        · rw [hrest, List.append_assoc]
          rfl
        · rw [hfront, hoffset, Nat.add_assoc]

theorem position_eq_locate (text : String) (offset : Nat) :
    (ofText text).position offset =
      locate 1 ⟨0, text.toList⟩ (linesFrom 0 text.toList) (min offset text.utf8ByteSize) := by
  rw [← byteLength_toList]
  unfold position locate ofText
  dsimp only
  rw [Nat.add_comm]

/-- **At the end of a character the search finds the position that is reached by scanning.** -/
theorem position_eq_after {text : String} {before behind : List Char}
    (htext : text.toList = before ++ behind) :
    (ofText text).position (byteLength before) = Position.start.after before := by
  have hle : byteLength before ≤ text.utf8ByteSize := by
    rw [← byteLength_toList, htext, byteLength_append]
    exact Nat.le_add_right _ _
  have hlocate := @locate_append 1 ⟨0, before ++ behind⟩ [] before behind 0 rfl rfl
  rw [Nat.zero_add] at hlocate
  rw [position_eq_locate, Nat.min_eq_left hle, htext, hlocate]
  rfl

/-- The number of a line counts the lines that start at the byte or before it. -/
theorem line_position (text : String) (offset : Nat) :
    ((ofText text).position offset).line =
      ((ofText text).lines.takeWhile (·.start ≤ min offset text.utf8ByteSize)).length := by
  have hfirst : (ofText text).lines = ⟨0, text.toList⟩ :: linesFrom 0 text.toList := rfl
  rw [position_eq_locate, hfirst, List.takeWhile_cons_of_pos (by simp), List.length_cons,
    Nat.add_comm]
  rfl

/-! ## What is found -/

/-- The position `p` is what a lookup of the byte `n` of a text has to find. -/
structure Finds (text : String) (n : Nat) (p : Position) : Prop where
  /-- The lines up to the number of the position are those that start at the byte or before it. -/
  searched : ∀ i l, (ofText text).lines[i]? = some l → (l.start ≤ n ↔ i < p.line)
  /-- The line with this number is there, and the byte does not stand in front of it. -/
  present : ∃ l, (ofText text).lines[p.line - 1]? = some l ∧ l.start ≤ n
  /-- The line is one more than the newlines in front of the byte. -/
  line : p.line = 1 + (charsWithin n text.toList).count '\n'
  /-- At the end of a character, the column is one more than the characters since the last
  newline. -/
  column : IsBoundary text.toList n →
    p.column = 1 + ((charsWithin n text.toList).reverse.takeWhile (· ≠ '\n')).length

theorem finds_position (text : String) (offset : Nat) :
    Finds text (min offset text.utf8ByteSize) ((ofText text).position offset) := by
  have hline : ((ofText text).position offset).line =
      1 + (charsWithin (min offset text.utf8ByteSize) text.toList).count '\n' := by
    have hpassed := length_passed 0 (min offset text.utf8ByteSize) text.toList
    rw [Nat.zero_add] at hpassed
    rw [position_eq_locate, ← hpassed]
    rfl
  have hsearched : ∀ i l, (ofText text).lines[i]? = some l →
      (l.start ≤ min offset text.utf8ByteSize ↔ i < ((ofText text).position offset).line) := by
    intro i l hl
    rw [line_position]
    exact start_le_iff (lines_sorted text) hl
  refine ⟨hsearched, ?_, hline, ?_⟩
  · have hlt : ((ofText text).position offset).line - 1 < (ofText text).lines.length := by
      have hle := (List.takeWhile_sublist
        (fun l : Line => decide (l.start ≤ min offset text.utf8ByteSize))
        (l := (ofText text).lines)).length_le
      rw [← line_position] at hle
      omega
    have hl := List.getElem?_eq_getElem hlt
    exact ⟨_, hl, (hsearched _ _ hl).mpr (by omega)⟩
  · rintro ⟨before, behind, htext, hbytes⟩
    have hmin : (ofText text).position offset =
        (ofText text).position (min offset text.utf8ByteSize) := by
      rw [position_eq_locate, position_eq_locate, Nat.min_eq_left (Nat.min_le_right _ _)]
    rw [hmin, ← hbytes, position_eq_after htext, Position.start_after, htext, charsWithin_append]

/-- **Further ends of characters have later positions.** -/
theorem position_lt {text : String} {n n' : Nat} (hn : IsBoundary text.toList n)
    (hn' : IsBoundary text.toList n') (hlt : n < n') :
    (ofText text).position n < (ofText text).position n' := by
  obtain ⟨before, behind, htext, rfl⟩ := hn
  obtain ⟨before', behind', htext', rfl⟩ := hn'
  have hfront : before <+: text.toList := ⟨behind, htext.symm⟩
  have hfront' : before' <+: text.toList := ⟨behind', htext'.symm⟩
  rw [position_eq_after htext, position_eq_after htext']
  -- of two fronts of a text the longer one goes on behind the shorter one
  rcases List.prefix_or_prefix_of_prefix hfront hfront' with ⟨more, rfl⟩ | ⟨more, rfl⟩
  · cases more with
    | nil => simp at hlt
    | cons c cs =>
        rw [Position.after_append]
        exact Position.lt_after _ c cs
  · rw [byteLength_append] at hlt
    omega

end LineIndex

/-! ## The tokens of a text -/

namespace Lexer

/-- Every token stands behind some front of the text, and there its lexeme stands. -/
theorem stands_of_scan {p : Position} {cs : List Char} {tokens : List Token}
    (h : scan p cs = .ok tokens) : ∀ t ∈ tokens, ∃ before behind,
      cs = before ++ t.lexeme.toList ++ behind ∧ t.position = p.after before := by
  fun_induction scan p cs generalizing tokens with
  | case1 p =>
      cases h
      exact List.forall_mem_singleton.mpr ⟨[], [], rfl, rfl⟩
  | case2 p c cs cause hpiece => cases h
  | case3 p c cs n hpiece ih =>
      intro t ht
      obtain ⟨before, behind, hrest, hposition⟩ := ih h t ht
      refine ⟨c :: cs.take n ++ before, behind, ?_, ?_⟩
      · rw [List.append_assoc, List.append_assoc, ← List.append_assoc before, ← hrest,
          List.cons_append, List.take_append_drop]
      · rw [hposition, Position.after_append]
  | case4 p c cs kind n hpiece => cases h
  | case5 p c cs kind n hpiece lexeme rest hrest =>
      rename_i ih
      cases h
      refine List.forall_mem_cons.mpr ⟨⟨[], cs.drop n, ?_, rfl⟩, fun t ht => ?_⟩
      · rw [String.toList_ofList, List.nil_append, List.cons_append, List.take_append_drop]
      · obtain ⟨before, behind, hbehind, hposition⟩ := ih hrest t ht
        refine ⟨lexeme ++ before, behind, ?_, ?_⟩
        · rw [List.append_assoc, List.append_assoc, ← List.append_assoc before, ← hbehind,
            List.cons_append, List.take_append_drop]
        · rw [hposition, Position.after_append]

end Lexer

/-- Every token stands where the index of the text says that its first byte stands, the end token
where the text ends, and the tokens stand strictly one behind the other. -/
structure Token.Located (text : String) (tokens : List Token) : Prop where
  sorted : tokens.Pairwise fun t t' => t.position < t'.position
  located : ∀ t ∈ tokens, ∃ before behind, text.toList = before ++ t.lexeme.toList ++ behind ∧
    t.position = (LineIndex.ofText text).position (byteLength before)
  ended : ∃ front, tokens =
    front ++ [⟨.eof, "", (LineIndex.ofText text).position text.utf8ByteSize⟩]

theorem located_of_tokenize {text : String} {tokens : List Token} (h : tokenize text = .ok tokens) :
    Token.Located text tokens := by
  refine ⟨(Lexer.scan_sorted h).2, fun t ht => ?_, ?_⟩
  · obtain ⟨before, behind, htext, hposition⟩ := Lexer.stands_of_scan h t ht
    refine ⟨before, behind, htext, ?_⟩
    rw [List.append_assoc] at htext
    rw [hposition, LineIndex.position_eq_after htext]
  · obtain ⟨front, hfront, -⟩ := Lexer.scan_lines h
    refine ⟨front, ?_⟩
    rw [hfront, ← byteLength_toList, LineIndex.position_eq_after (List.append_nil _).symm]

/-- **The search for the line of a byte finds what scanning the text in front of it arrives at**, for
every byte of every text, in front of its end or behind it. On the ends of characters positions
increase strictly, and so they do on the tokens of every text that has any. -/
theorem position_scans (text : String) :
    (∀ offset, LineIndex.Finds text (min offset text.utf8ByteSize)
        ((LineIndex.ofText text).position offset)) ∧
      (∀ n n', IsBoundary text.toList n → IsBoundary text.toList n' → n < n' →
        (LineIndex.ofText text).position n < (LineIndex.ofText text).position n') ∧
      ∀ tokens, tokenize text = .ok tokens → Token.Located text tokens :=
  ⟨LineIndex.finds_position text, fun _ _ => LineIndex.position_lt,
    fun _ => located_of_tokenize⟩

/-- A string with a character of two bytes in front of the end of a line. -/
theorem position_scans_two_lines :
    let text := "\"é\"\nx"
    IsBoundary text.toList 1 ∧ IsBoundary text.toList 3 ∧
      (LineIndex.ofText text).position 1 < (LineIndex.ofText text).position 3 ∧
      ∃ tokens, tokenize text = .ok tokens ∧ Token.Located text tokens := by
  intro text
  have hone : IsBoundary text.toList 1 := ⟨['"'], ['é', '"', '\n', 'x'], by decide, by decide⟩
  have hthree : IsBoundary text.toList 3 := ⟨['"', 'é'], ['"', '\n', 'x'], by decide, by decide⟩
  obtain ⟨-, hlt, htokens⟩ := position_scans text
  have hscan : (tokenize text).toOption.isSome = true := by
    decide +kernel
  refine ⟨hone, hthree, hlt 1 3 hone hthree (by decide), ?_⟩
  cases htext : tokenize text with
  | ok tokens => exact ⟨tokens, rfl, htokens tokens htext⟩
  | error e =>
      rw [htext] at hscan
      cases hscan

end Lipi
