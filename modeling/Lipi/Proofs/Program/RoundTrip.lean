import Lipi.Program.Parser
import Lipi.Proofs.Statement.ReadBack

set_option autoImplicit false

/-! # Printing and reading programs

The canonical text of a program that has been read is read again. **The same program comes back, up
to positions, if and only if nothing in it is misread** (`Program.ofText_text`), and it then has the
same canonical text. Every program that is read is well-formed (`programBody_ok`), so that its
statements are read back or misread one by one.
-/

namespace Lipi

open Statement (lineItems newline)

/-! ## The items of a program -/

namespace Statement

/-- The lines of statements, with the given blanks in front of the first one. -/
def linesBehind (before : List Char) (depth : Nat) : List Statement → List Item
  | [] => []
  | t :: ts => t.items depth before ++ lineItems depth ts

theorem linesBehind_newline (depth : Nat) (ts : List Statement) :
    linesBehind (newline depth) depth ts = lineItems depth ts := by
  cases ts <;> rfl

end Statement

open Statement (linesBehind)

namespace Program

/-- The marker at the end of a program. -/
def closing (markers : Bool) : List Item :=
  if markers then [.keyword (newline 0) .khatam] else []

/-- The items of a program. Without markers, nothing stands in front of the first statement. -/
def items (p : Program) : List Item :=
  if p.markers then .keyword [] .shuru :: (linesBehind (newline 1) 1 p.body ++ closing true)
  else linesBehind [] 0 p.body ++ closing false

/-- What stands behind the last item: a newline, unless there is no item. -/
def trailing (p : Program) : List Char :=
  if p.items.isEmpty then [] else ['\n']

/-- The items of a program make up its text. -/
theorem text_items (p : Program) : Item.text p.items ++ p.trailing = p.text.toList := by
  obtain ⟨body, markers⟩ := p
  cases markers with
  | true =>
      -- the newline behind the first marker belongs to the first line or to the last marker
      have hlines := Statement.text_lineItems 1 body
      have hkhatam : Item.text (closing true) = ['\n'] ++ "khatam".toList := rfl
      calc Item.text (items ⟨body, true⟩) ++ ['\n']
          = "shuru".toList ++ ((Item.text (lineItems 1 body) ++ ['\n']) ++ "khatam\n".toList) := by
            simp only [items, Statement.linesBehind_newline, if_true, Item.text_cons,
              Item.text_append, hkhatam]
            simp [Item.keyword, Keyword.spelling]
        _ = (Program.text ⟨body, true⟩).toList := by
            rw [hlines]
            simp [Program.text]
  | false =>
      cases body with
      | nil => rfl
      | cons t ts =>
          -- the newline that every other line starts with is missing in front of the first line
          have hlines := Statement.text_lineItems 0 (t :: ts)
          have hshown : trailing ⟨t :: ts, false⟩ = ['\n'] := by
            have hnonempty := Statement.items_ne_nil 0 [] t
            simp [trailing, items, linesBehind, hnonempty]
          have htext : Item.text (items ⟨t :: ts, false⟩)
              = Item.text (t.items 0 []) ++ Item.text (lineItems 0 ts) := by
            simp [items, linesBehind, closing]
          rw [hshown, htext, Statement.text_items, List.nil_append]
          rw [lineItems, Item.text_append, Statement.text_items] at hlines
          exact List.cons.inj hlines |>.2

/-- The items of a well-formed program are told apart. -/
theorem lexAll_items {p : Program} (h : Statement.AllWellFormed true p.body) :
    Item.LexAll p.items p.trailing := by
  obtain ⟨body, markers⟩ := p
  cases markers with
  | true =>
      have hend : ends (Item.text (closing true) ++ ['\n']) = true := rfl
      have hlines : Item.LexAll (lineItems 1 body) (Item.text (closing true) ++ ['\n']) :=
        Statement.lexAll_lineItems (calm_of_ends hend) 1 true body h
      show Item.LexAll (.keyword [] .shuru :: (linesBehind (newline 1) 1 body ++ closing true)) ['\n']
      -- a line break separates the opening marker from what follows
      rw [Statement.linesBehind_newline]
      refine ⟨Item.lexes_keyword Expr.blank_nil .shuru ?_, Item.lexAll_append.mpr ⟨hlines, ?_⟩⟩
      · rw [Item.text_append, List.append_assoc]
        rcases Statement.lineItems_start 1 body with hnone | ⟨cs, hcs⟩
        · rw [hnone]
          exact hend
        · rw [hcs]
          exact ends_cons (by decide) _
      · exact ⟨Item.lexes_keyword (Statement.blank_newline 0) .khatam rfl, trivial⟩
  | false =>
      cases body with
      | nil => trivial
      | cons t ts =>
          have htrailing : calm (trailing ⟨t :: ts, false⟩) = true := by
            unfold trailing
            split <;> rfl
          show Item.LexAll ((t.items 0 [] ++ lineItems 0 ts) ++ []) _
          rw [List.append_nil]
          refine Item.lexAll_append.mpr ⟨?_, Statement.lexAll_lineItems htrailing 0 true ts h.2⟩
          exact Statement.lexAll_items
            (Statement.calm_lines (Statement.lineItems_start 0 ts) htrailing) Expr.blank_nil 0 true t
            h.1

/-- No item of a program stands in front of its first one, not even a newline. -/
theorem items_first {p : Program} (h : Statement.AllWellFormed true p.body) {i : Item}
    {is : List Item} (hcons : p.items = i :: is) : i.startsLine = false := by
  obtain ⟨body, markers⟩ := p
  cases markers with
  | true =>
      cases hcons
      rfl
  | false =>
      cases body with
      | nil => cases hcons
      | cons t ts =>
          obtain ⟨j, js, hitems, hleads⟩ := Statement.items_lead 0 [] t h.1
          have hfirst : i = j := by
            simp only [items, linesBehind, hitems, Bool.false_eq_true, if_false,
              List.cons_append] at hcons
            exact (List.cons.inj hcons).1.symm
          rw [hfirst, Item.startsLine, hleads.before]
          rfl

end Program

/-! ## The body of a program -/

namespace Parser

open Lipi.Stream (Shows)

theorem steady_declaration (topLevel : Bool) : Steady (declaration topLevel) :=
  steady_bounded fun n => steady_declarationWithin n topLevel

theorem fatal_ne_ok {cause : CompileError.Cause} {s : Stream} {q : Program} :
    fatal cause s ≠ .ok q := by
  intro h
  cases h

theorem conclude_ok {markers : Bool} {body : List Statement} {s : Stream} {q : Program}
    (h : conclude markers body s = .ok q) : s.errors.size = 0 ∧ q = ⟨body, markers⟩ := by
  unfold conclude at h
  split at h
  · next hempty =>
    cases h
    exact ⟨by simpa using hempty, rfl⟩
  · cases h

/-- **Every program that is read is well-formed**, and no error has been recorded before or behind
any of its statements. -/
theorem programBody_ok {markers : Bool} {n : Nat} {previous : List Statement} {s : Stream}
    {q : Program} (hs : s.Lexed) (h : programBody markers n previous s = .ok q) :
    s.errors.size = 0 ∧ ∃ us, q = ⟨previous.reverse ++ us, markers⟩ ∧
      Statement.AllWellFormed true us := by
  induction n generalizing previous s with
  | zero => exact absurd h fatal_ne_ok
  | succ n ih =>
      -- the statements have been read: the program is concluded, and no error is recorded
      have hdone : ∀ {s' : Stream}, s'.errors = s.errors →
          conclude markers previous.reverse s' = .ok q → s.errors.size = 0 ∧
            ∃ us, q = ⟨previous.reverse ++ us, markers⟩ ∧ Statement.AllWellFormed true us := by
        intro s' herrors hconclude
        obtain ⟨hempty, rfl⟩ := conclude_ok hconclude
        rw [herrors] at hempty
        exact ⟨hempty, [], by simp, trivial⟩
      rw [programBody] at h
      split at h
      · split at h
        · exact absurd h fatal_ne_ok
        · exact hdone rfl h
      · split at h
        · dsimp only at h
          split at h
          · exact hdone s.advance_errors h
          · exact absurd h fatal_ne_ok
        · exact absurd h fatal_ne_ok
      · split at h
        · next t s₁ hrun =>
          have hkeeps := (steady_declaration true).ok hrun
          obtain ⟨hempty, us, rfl, hus⟩ := ih (hs.keeps hkeeps) h
          have herrors := hkeeps.errors
          have hwell := (declarationWithin_built _ hs hrun).well
          exact ⟨by omega, t :: us, by simp, hwell, hus⟩
        · next error s₁ hrun =>
          split at h
          · cases h
          · -- a recorded error is never forgotten, so the program is not read
            have hkeeps := (steady_declaration true).error hrun
            obtain ⟨hempty, _⟩ := ih ((hs.keeps hkeeps).keeps (.recover s₁ error false)) h
            have hrecorded := s₁.errors_lt_recover error false
            omega

theorem closing_kind (markers : Bool) :
    Item.kindOf (Program.closing markers) ≠ .keyword .warna := by
  cases markers <;> nofun

/-- A statement in front of others is not the end of the program. -/
theorem programBody_step {t : Statement} (ht : t.WellFormed true) {depth : Nat}
    {before : List Char} {is : List Item} {s : Stream} (hs : Shows (t.items depth before ++ is) s)
    (markers : Bool) (n : Nat) (previous : List Statement) :
    programBody markers (n + 1) previous s =
      match declaration true s with
      | .ok statement s' => programBody markers n (statement :: previous) s'
      | .error error s' =>
        if error.isFatal then .error (s'.record error).errors.toList
        else programBody markers n previous ((s'.record error).synchronize false) := by
  obtain ⟨i, js, hcons, hleads⟩ := Statement.items_lead depth before t ht
  rw [hcons, List.cons_append] at hs
  rw [programBody, hs.kind]
  split
  · next hkind => exact absurd hkind (hleads.kind_ne (by simp))
  · next hkind => exact absurd hkind (hleads.kind_ne (by simp))
  · rfl

/-- The lines of a program are read back if nothing in them is misread. -/
theorem programBody_reads {markers : Bool} {depth : Nat} {ts : List Statement}
    (hwell : Statement.AllWellFormed true ts) (hclean : Statement.misreadAll ts = false)
    {before : List Char} {s : Stream}
    (hs : Shows (linesBehind before depth ts ++ Program.closing markers) s)
    (herrors : s.errors = #[]) {n : Nat} (hn : ts.length < n) (previous : List Statement) :
    ∃ us, programBody markers n previous s = .ok ⟨previous.reverse ++ us, markers⟩ ∧
      Statement.eraseAll us = Statement.eraseAll ts := by
  induction ts generalizing before s n previous with
  | nil =>
      obtain ⟨n, rfl⟩ : ∃ m, n = m + 1 := ⟨n - 1, by omega⟩
      refine ⟨[], ?_, rfl⟩
      rw [List.append_nil]
      -- the end of the lines is the end of the text, or the closing marker in front of it
      cases markers with
      | false =>
          have hkind : s.kind = .eof := hs.kind_nil
          rw [programBody, hkind]
          simp [conclude, herrors]
      | true =>
          have hkind : s.kind = .keyword .khatam := hs.kind
          have hend : s.advance.isAtEnd = true := by
            rw [Stream.isAtEnd_iff]
            exact hs.advance.kind_nil
          rw [programBody, hkind]
          simp [conclude, hend, herrors]
  | cons t ts ih =>
      obtain ⟨n, rfl⟩ : ∃ m, n = m + 1 := ⟨n - 1, by omega⟩
      rw [List.length_cons] at hn
      rw [linesBehind, List.append_assoc] at hs
      obtain ⟨ht, hts⟩ := hwell
      obtain ⟨hclean₁, hclean₂⟩ := Bool.or_eq_false_iff.mp hclean
      have hnext := kindOf_lineItems hts depth (closing_kind markers)
      -- one declaration is read back, and the loop goes on behind it with no new error
      obtain ⟨t', s₁, hrun, hsame, hs₁, hkept⟩ :=
        (tells_declaration ht depth before fun _ => hnext).reads hclean₁ s hs
      rw [← Statement.linesBehind_newline] at hs₁
      obtain ⟨us, hrest, hus⟩ := ih hts hclean₂ hs₁ (hkept.trans herrors) (n := n)
        (by omega) (t' :: previous)
      refine ⟨t' :: us, ?_, ?_⟩
      · rw [programBody_step ht hs, hrun]
        simpa using hrest
      · rw [Statement.eraseAll, Statement.eraseAll, hus, show t'.erase = t.erase from hsame]

/-- If something in the lines of a program is misread, they are not read back. -/
theorem programBody_spoils {markers : Bool} {depth : Nat} {ts : List Statement}
    (hwell : Statement.AllWellFormed true ts) (hbad : Statement.misreadAll ts = true)
    {before : List Char} {s : Stream}
    (hs : Shows (linesBehind before depth ts ++ Program.closing markers) s) (hlexed : s.Lexed)
    {n : Nat} {previous : List Statement} {q : Program}
    (h : programBody markers n previous s = .ok q) :
    ∃ us, q = ⟨previous.reverse ++ us, markers⟩ ∧ Statement.agreesAll ts us = false := by
  induction ts generalizing before s n previous with
  | nil => cases hbad
  | cons t ts ih =>
      cases n with
      | zero => exact absurd h fatal_ne_ok
      | succ n =>
      rw [linesBehind, List.append_assoc] at hs
      obtain ⟨ht, hts⟩ := hwell
      have hnext := kindOf_lineItems hts depth (closing_kind markers)
      have htells := tells_declaration ht depth before fun _ => hnext
      rw [programBody_step ht hs] at h
      split at h
      · next t' s₁ hrun =>
        have hlexed₁ := hlexed.keeps ((steady_declaration true).ok hrun)
        have hstays := programBody_ok hlexed₁ h
        -- as in a block: the first misreading decides, and later statements only come behind it
        cases hfirst : t.misread with
        | false =>
            obtain ⟨t'', s₂, hrun', _, hs₂, _⟩ := htells.reads hfirst s hs
            rw [hrun] at hrun'
            cases hrun'
            rw [← Statement.linesBehind_newline] at hs₂
            have hrest : Statement.misreadAll ts = true := by
              rw [← hbad]
              show _ = (t.misread || Statement.misreadAll ts)
              rw [hfirst, Bool.false_or]
            obtain ⟨us, rfl, hus⟩ := ih hts hrest hs₂ hlexed₁ h
            refine ⟨t' :: us, by simp, ?_⟩
            rw [Statement.agreesAll, hus, Bool.and_false]
        | true =>
            obtain ⟨hempty, us, rfl, _⟩ := hstays
            refine ⟨t' :: us, by simp, ?_⟩
            rcases htells.spoils hfirst s hs t' s₁ hrun with hdiffers | hgrown
            · rw [Statement.agreesAll, show t.agrees t' = false from hdiffers, Bool.false_and]
            · omega
      · next error s₁ hrun =>
        split at h
        · cases h
        · -- the recorded error is still there in the end
          have hkeeps := (steady_declaration true).error hrun
          have hlexed₁ := (hlexed.keeps hkeeps).keeps (.recover s₁ error false)
          obtain ⟨hempty, _⟩ := programBody_ok hlexed₁ h
          have hrecorded := s₁.errors_lt_recover error false
          omega

end Parser

/-! ## Round trips -/

namespace Program

open Lipi.Stream (Shows)

/-- Whether the program contains a conditional or a loop whose body is an expression that starts with
a bracket, or a method that is read as the end of the program. -/
def misread (p : Program) : Bool :=
  Statement.misreadAll p.body

theorem lexed_of_tokenize {text : String} {tokens : List Token} (h : tokenize text = .ok tokens) :
    (Stream.ofTokens tokens).Lexed := by
  intro t ht
  exact lexed_scan h t (List.mem_toArray.mp ht)

/-- The two ways into the body of a program. -/
theorem ofTokens_ok {tokens : List Token} {p : Program} (h : ofTokens tokens = .ok p) :
    ∃ markers n s, (Stream.ofTokens tokens).Keeps s ∧ Parser.programBody markers n [] s = .ok p := by
  unfold ofTokens at h
  dsimp only at h
  split at h
  · exact ⟨true, _, _, .advance _, h⟩
  · exact ⟨false, _, _, .refl _, h⟩

theorem wellFormed_of_ofText {text : String} {p : Program} (h : ofText text = .ok p) :
    Statement.AllWellFormed true p.body := by
  unfold ofText at h
  split at h
  · next tokens htokens =>
    obtain ⟨markers, n, s, hkeeps, hbody⟩ := ofTokens_ok h
    obtain ⟨_, us, rfl, hus⟩ :=
      Parser.programBody_ok ((lexed_of_tokenize htokens).keeps hkeeps) hbody
    exact hus
  · cases h

theorem length_le_linesBehind (before : List Char) (depth : Nat) (ts : List Statement) :
    ts.length ≤ (linesBehind before depth ts).length := by
  cases ts with
  | nil => exact Nat.le_refl 0
  | cons t ts =>
      have hlines := Statement.length_le_lineItems depth ts
      have hpos := List.length_pos_of_ne_nil (Statement.items_ne_nil depth before t)
      rw [linesBehind, List.length_append, List.length_cons]
      omega

/-- **Reading the canonical text of a program is reading its lines.** -/
theorem ofText_lines {p : Program} (h : Statement.AllWellFormed true p.body) :
    ∃ n before depth s, ofText p.text = Parser.programBody p.markers n [] s ∧
      Shows (linesBehind before depth p.body ++ closing p.markers) s ∧ s.errors = #[] ∧ s.Lexed ∧
      p.body.length < n := by
  have hlex := lexAll_items h
  have htokens : tokenize p.text = .ok (Item.place .start p.items p.trailing) := by
    unfold tokenize
    rw [← text_items]
    refine Item.scan_items hlex (fun c hc => ?_) _
    unfold trailing at hc
    split at hc
    · cases hc
    · rw [List.mem_singleton.mp hc]
      decide
  -- the items of the text are seen by a stream that has recorded nothing
  have hshows := Stream.shows_items hlex fun i is => items_first h
  have hlexed := lexed_of_tokenize htokens
  have herrors : (Stream.ofTokens (Item.place .start p.items p.trailing)).errors = #[] := rfl
  unfold ofText
  rw [htokens]
  dsimp only [ofTokens]
  generalize Stream.ofTokens (Item.place .start p.items p.trailing) = s at hshows hlexed herrors
  have hbound := hshows.bound
  obtain ⟨body, markers⟩ := p
  cases markers with
  | true =>
      have hlines := length_le_linesBehind (newline 1) 1 body
      have hlength : body.length ≤ (items ⟨body, true⟩).length := by
        show _ ≤ (_ :: (linesBehind (newline 1) 1 body ++ closing true)).length
        rw [List.length_cons, List.length_append]
        omega
      have hstart : s.check (.keyword .shuru) = true := (s.check_keyword .shuru).mpr hshows.kind
      refine ⟨s.bound, newline 1, 1, s.advance, if_pos hstart, hshows.advance, ?_,
        hlexed.keeps (.advance s), ?_⟩
      · rw [s.advance_errors, herrors]
      · show body.length < s.bound
        omega
  | false =>
      have hlines := length_le_linesBehind [] 0 body
      have hlength : (items ⟨body, false⟩).length = (linesBehind [] 0 body).length := by
        show (linesBehind [] 0 body ++ []).length = _
        rw [List.append_nil]
      have hstart : ¬s.check (.keyword .shuru) = true := by
        rw [s.check_keyword .shuru, hshows.kindOf]
        cases body with
        | nil => nofun
        | cons t ts =>
            obtain ⟨i, is, hcons, hleads⟩ := Statement.items_lead 0 [] t h.1
            show Item.kindOf ((t.items 0 [] ++ _) ++ _) ≠ _
            rw [hcons]
            exact hleads.kind_ne (by simp)
      refine ⟨s.bound, [], 0, s, if_neg hstart, hshows, herrors, hlexed, ?_⟩
      show body.length < s.bound
      omega

/-- **A program is read back from its canonical text if and only if nothing in it is misread**, and
what is read back then has the same canonical text. -/
theorem ofText_text {text : String} {p : Program} (h : ofText text = .ok p) :
    ((∃ q, ofText p.text = .ok q ∧ p.agrees q = true) ↔ p.misread = false) ∧
      (p.misread = false → ∃ q, ofText p.text = .ok q ∧ p.agrees q = true ∧ q.text = p.text) := by
  have hwell := wellFormed_of_ofText h
  obtain ⟨n, before, depth, s, hread, hshows, herrors, hlexed, hn⟩ := ofText_lines hwell
  have hclean : p.misread = false →
      ∃ q, ofText p.text = .ok q ∧ p.agrees q = true ∧ q.text = p.text := by
    intro hmisread
    obtain ⟨us, hbody, hus⟩ :=
      Parser.programBody_reads hwell hmisread hshows herrors hn []
    refine ⟨⟨us, p.markers⟩, hread.trans hbody, ?_, ?_⟩
    · unfold agrees
      rw [beq_self_eq_true, Bool.true_and]
      exact Statement.agreesAll_of_erase true p.body us hwell hus
    · have hlines : ∀ d, Statement.linesAt d us = Statement.linesAt d p.body := by
        intro d
        rw [← Statement.linesAt_eraseAll, hus, Statement.linesAt_eraseAll]
      unfold Program.text
      simp only [hlines]
  refine ⟨⟨?_, fun hmisread => ?_⟩, hclean⟩
  · rintro ⟨q, hq, hagrees⟩
    rw [Bool.eq_false_iff]
    intro hmisread
    rw [hread] at hq
    -- whatever is read differs from the program where it is misread
    obtain ⟨us, rfl, hus⟩ := Parser.programBody_spoils hwell hmisread hshows hlexed hq
    have hdiffers : p.agrees ⟨[].reverse ++ us, p.markers⟩ = false := by
      show (_ && Statement.agreesAll p.body us) = false
      rw [hus, Bool.and_false]
    exact absurd (hdiffers.symm.trans hagrees) Bool.false_ne_true
  · obtain ⟨q, hq, hagrees, _⟩ := hclean hmisread
    exact ⟨q, hq, hagrees⟩

theorem ofText_of_misread {text : String} {b : Bool}
    (h : (ofText text).toOption.map misread = some b) : ∃ p, ofText text = .ok p ∧ p.misread = b := by
  cases hread : ofText text with
  | ok p =>
      rw [hread] at h
      exact ⟨p, rfl, Option.some.inj h⟩
  | error errors =>
      rw [hread] at h
      cases h

/-- A public method called by the end marker is lost, and a conditional is read back. -/
theorem ofText_text_khatam :
    (∃ p, ofText "kaksha A \x7b sabka khatam() \x7b\x7d \x7d" = .ok p ∧ p.misread = true ∧
      ¬∃ q, ofText p.text = .ok q ∧ p.agrees q = true) ∧
    ∃ p, ofText "agar (x) chaap [y]" = .ok p ∧ p.misread = false ∧
      ∃ q, ofText p.text = .ok q ∧ p.agrees q = true ∧ q.text = p.text := by
  constructor
  · obtain ⟨p, hread, hlost⟩ : ∃ p, ofText "kaksha A \x7b sabka khatam() \x7b\x7d \x7d" = .ok p ∧
        p.misread = true := ofText_of_misread (by decide +kernel)
    refine ⟨p, hread, hlost, fun hback => ?_⟩
    have hkept := (ofText_text hread).1.mp hback
    exact absurd (hkept.symm.trans hlost) Bool.false_ne_true
  · obtain ⟨p, hread, hkept⟩ : ∃ p, ofText "agar (x) chaap [y]" = .ok p ∧ p.misread = false :=
      ofText_of_misread (by decide +kernel)
    exact ⟨p, hread, hkept, (ofText_text hread).2 hkept⟩

end Program

end Lipi
