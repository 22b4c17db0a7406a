/-
A citation is read as the call it was written for.

The group of parameters is looked for from the end, so balanced parameters
are passed over as a whole. What stands before them are names and what
joins them, and the method is the last of the names.
-/
import CallTrace.Proofs.Reply.Written
import CallTrace.Proofs.Text.Qualified

namespace CallTrace.Reply

open Text Written

-- ========================================================= parameters

/-- To pass over a text from its end is to undo what passing over it from
its front does. -/
theorem openGroup?_append {depth after : Nat} {cs : List Char}
    (h : depthAfter? depth cs = some after) (inside before : List Char) :
    openGroup? after inside (cs.reverse ++ before) =
      openGroup? depth (cs ++ inside) before := by
  induction depth, cs using depthAfter?.induct generalizing before with
  | case1 depth =>
    obtain rfl : depth = after := Option.some.inj h
    rfl
  | case2 depth rest ih =>
    rw [List.reverse_cons, List.append_assoc, ih h, List.singleton_append,
      openGroup?, List.cons_append]
  | case3 => cases h
  | case4 depth rest ih =>
    rw [List.reverse_cons, List.append_assoc, ih h, List.singleton_append,
      openGroup?, List.cons_append]
  | case5 depth c rest hopen hzero hsucc ih =>
    have hclose : c ≠ ')' := fun hc => by
      cases depth with
      | zero => exact hzero rfl hc
      | succ depth => exact hsucc depth rfl hc
    have hrest : depthAfter? depth rest = some after := by
      rwa [depthAfter?] at h <;> assumption
    rw [List.reverse_cons, List.append_assoc, ih hrest,
      List.singleton_append, openGroup?, List.cons_append]
    · exact hclose
    · exact hopen

/-- A balanced group at the end of a text is split from it. -/
theorem splitGroup?_append (front : List Char) {inside : List Char}
    (h : depthAfter? 0 inside = some 0) :
    splitGroup? (front ++ '(' :: (inside ++ [')'])) =
      some (trimRight front, trim inside) := by
  have hreverse : (front ++ '(' :: (inside ++ [')'])).reverse =
      ')' :: (inside.reverse ++ '(' :: front.reverse) := by
    simp
  have hgroup : openGroup? 0 [] (inside.reverse ++ '(' :: front.reverse) =
      some (inside, front.reverse) := by
    rw [openGroup?_append h, List.append_nil, openGroup?]
  simp only [splitGroup?, hreverse, hgroup, Option.map_some,
    List.reverse_reverse]

-- ============================================================== names

namespace Written.Joint

variable (j : Joint) (front : List Char)

theorem receiver?_append :
    receiver? (j.text.reverse ++ front) = some front.reverse := by
  cases j <;> rfl

theorem head?_reverse_append :
    ∀ c ∈ (j.text.reverse ++ front).head?, isIdentRest c = false := by
  cases j <;> simp [text] <;> decide

/-- What joins names ends the one before it, an arrow only where arrows
count. -/
theorem segments_go_append {arrows : Bool} (h : arrows = true ∨ j ≠ .arrow)
    (seg rest : List Char) :
    segmentsBy.go arrows seg (j.text ++ rest) =
      seg.reverse :: segmentsBy.go arrows [] rest := by
  cases j <;> simp_all [text, segmentsBy.go]

theorem mem_text {c : Char} (h : c ∈ j.text) : c ∈ ['.', ':', '-', '>'] := by
  cases j <;> simp_all [text]

end Written.Joint

/-- A method behind its joint is split from what stands before. -/
theorem splitMethod?_append (front : List Char) (j : Joint) (m : Ident) :
    splitMethod? (front ++ (j.text ++ m.text)) = some (front, m.text) := by
  have hback : (front ++ (j.text ++ m.text)).reverse =
      m.text.reverse ++ (j.text.reverse ++ front.reverse) := by
    simp
  have hname : ∀ c ∈ m.text.reverse, isIdentRest c = true := fun c hc =>
    isIdentRest_of_mem m.isIdent (List.mem_reverse.1 hc)
  have hspan := span_append hname (j.head?_reverse_append front.reverse)
  rw [List.span_eq_takeWhile_dropWhile, Prod.mk.injEq] at hspan
  simp only [splitMethod?, hback, hspan.1, hspan.2, List.reverse_reverse,
    m.isIdent, if_true, j.receiver?_append, Option.map_some]

/-- A path is cut where its names are joined. -/
theorem segmentsBy_append {arrows : Bool} {outer : List (Ident × Joint)}
    (h : ∀ part ∈ outer, arrows = true ∨ part.2 ≠ .arrow) (last : Ident) :
    segmentsBy arrows
        (outer.flatMap (fun (name, joint) => name.text ++ joint.text) ++
          last.text) = outer.map (·.1.text) ++ [last.text] := by
  have hlast := segments_go_of_isIdent arrows last.isIdent
  unfold segmentsBy
  induction outer with
  | nil => simpa using hlast
  | cons part rest ih =>
    obtain ⟨name, joint⟩ := part
    rw [List.flatMap_cons, List.append_assoc, List.append_assoc,
      segments_go_append
        (fun d hd => isIdentRest_of_mem name.isIdent hd),
      joint.segments_go_append (h _ (.head _)),
      ih fun part hpart => h part (.tail _ hpart)]
    simp

theorem path_append (outer : List (Ident × Joint)) (last : Ident) :
    path (outer.flatMap (fun (name, joint) => name.text ++ joint.text) ++
      last.text) = outer.map (·.1.text) ++ [last.text] :=
  segmentsBy_append (fun _ _ => .inl rfl) last

/-- A path is written in the characters of names and of what joins them. -/
theorem mem_path {outer : List (Ident × Joint)} {last : Ident} {d : Char}
    (h : d ∈ outer.flatMap (fun (name, joint) => name.text ++ joint.text) ++
      last.text) : isIdentRest d = true ∨ d ∈ ['.', ':', '-', '>'] := by
  simp only [List.mem_append, List.mem_flatMap] at h
  rcases h with ⟨part, -, h | h⟩ | h
  · exact .inl (isIdentRest_of_mem part.1.isIdent h)
  · exact .inr (part.2.mem_text h)
  · exact .inl (isIdentRest_of_mem last.isIdent h)

/-- A path stands for its last name, unless that is one of the current
object. -/
theorem typeOfReceiver?_path (owner : String)
    (outer : List (Ident × Joint)) (last : Ident) :
    typeOfReceiver? owner
        (outer.flatMap (fun (name, joint) => name.text ++ joint.text) ++
          last.text) =
      some (if selfReceivers.contains (String.ofList last.text) then owner
        else String.ofList last.text) := by
  have hpath := path_append outer last
  have hempty : (outer.flatMap (fun (name, joint) =>
      name.text ++ joint.text) ++ last.text).isEmpty = false := by
    simp [isIdent_ne_nil last.isIdent]
  generalize outer.flatMap (fun (name, joint) =>
    name.text ++ joint.text) ++ last.text = receiver at hpath hempty ⊢
  have hall : allIdents (path receiver) = true := by
    rw [hpath, allIdents, List.all_append, List.all_map]
    simp [last.isIdent, Ident.isIdent]
  have hidents : upToFinalBreak (fun cs => allIdents (path cs))
      receiver = true := by
    simp [upToFinalBreak, hall]
  have hlast : lastOf (path receiver) = last.text := by
    rw [hpath, lastOf, List.getLast?_concat, Option.getD_some]
  simp only [typeOfReceiver?, hempty, hidents, hlast, Bool.false_eq_true,
    if_false, if_true]

namespace Written.Cited

variable (c : Cited)

/-- The citation without its parameters. -/
def front : List Char := c.receiver ++ (c.joint.text ++ c.method.text)

theorem text_eq :
    c.text = c.front ++ '(' :: (c.params.text ++ [')']) := by
  simp [text, front]

theorem mem_front {d : Char} (h : d ∈ c.front) :
    isIdentRest d = true ∨ d ∈ ['.', ':', '-', '>'] := by
  rw [front, List.mem_append, List.mem_append] at h
  rcases h with h | h | h
  · exact mem_path h
  · exact .inr (c.joint.mem_text h)
  · exact .inl (isIdentRest_of_mem c.method.isIdent h)

/-- What is true of identifiers and of what joins them. -/
theorem front_induction {P : Char → Prop}
    (hident : ∀ d, isIdentRest d = true → P d)
    (hjoint : ∀ d ∈ ['.', ':', '-', '>'], P d) : ∀ d ∈ c.front, P d :=
  fun d hd => (c.mem_front hd).elim (hident d) (hjoint d)

/-- A call begins with a letter of a name. -/
theorem exists_front : ∃ d rest, c.front = d :: rest ∧
    isIdentStart d = true := by
  have hname : ∀ (i : Ident) (rest : List Char), ∃ d rest',
      i.text ++ rest = d :: rest' ∧ isIdentStart d = true := by
    intro i rest
    obtain ⟨text, htext⟩ := i
    cases text with
    | nil => cases htext
    | cons d more =>
      rw [isIdent, Bool.and_eq_true] at htext
      exact ⟨d, more ++ rest, rfl, htext.1⟩
  rw [front, receiver]
  cases c.outer with
  | nil => exact hname _ _
  | cons part rest =>
    obtain ⟨name, joint⟩ := part
    simp only [List.flatMap_cons, List.append_assoc]
    exact hname _ _

end Written.Cited

-- ========================================================= surroundings

/-- No blank follows a word that a call starts with, whether the word ends
inside of the call's name or with it. -/
theorem isBlank_head_of_append {w front rest tail : List Char}
    (h : front ++ '(' :: rest = w ++ tail) (hw : '(' ∉ w)
    (hfront : ∀ c ∈ front, isBlank c = false) :
    ∀ c ∈ tail.head?, isBlank c = false := by
  intro c hc
  rcases List.append_eq_append_iff.1 h with ⟨mid, rfl, htail⟩ |
    ⟨mid, rfl, htail⟩
  · -- The word goes on up to the parenthesis at least.
    cases mid with
    | nil =>
      rw [List.nil_append] at htail
      subst htail
      obtain rfl : '(' = c := Option.some.inj hc
      decide
    | cons d mid =>
      obtain ⟨rfl, -⟩ := List.cons.inj htail
      exact absurd (by simp) hw
  · cases mid with
    | nil =>
      subst htail
      obtain rfl : '(' = c := Option.some.inj hc
      decide
    | cons d mid =>
      subst htail
      obtain rfl : d = c := Option.some.inj hc
      exact hfront d (by simp)

/-- No word leads a call whose front has no blanks. -/
theorem dropLeadWord_append {front : List Char}
    (hfront : ∀ c ∈ front, isBlank c = false) (rest : List Char) :
    dropLeadWord (front ++ '(' :: rest) = front ++ '(' :: rest := by
  unfold dropLeadWord
  dsimp only
  rw [List.findSome?_eq_none_iff.2, Option.getD_none]
  intro w hw
  have hparen : '(' ∉ w.toList := by
    revert w
    decide
  split
  · rename_i hprefix
    obtain ⟨tail, htail⟩ := List.isPrefixOf_iff_prefix.1 hprefix
    have hdrop : (front ++ '(' :: rest).drop w.length = tail := by
      rw [← htail, ← String.length_toList, List.drop_left]
    rw [hdrop]
    cases tail with
    | nil => rfl
    | cons c tail =>
      have hc := isBlank_head_of_append htail.symm hparen hfront c rfl
      simp [hc]
  · rfl

/-- Nothing stands around a call with a parameter group whose name is
without blanks and does not start with a backtick. -/
theorem bare_append {front inside : List Char} (hne : front ≠ [])
    (hblank : ∀ c ∈ front, isBlank c = false)
    (hquote : front.head? ≠ some backtick) :
    bare (front ++ '(' :: (inside ++ [')'])) =
      front ++ '(' :: (inside ++ [')']) := by
  have hlast : (front ++ '(' :: (inside ++ [')'])).getLast? = some ')' := by
    rw [← List.cons_append, ← List.append_assoc, List.getLast?_concat]
  -- Both ends of the text are of another kind than what is trimmed.
  have hends : ∀ p : Char → Bool, (∀ c ∈ front.head?, p c = false) →
      p ')' = false → trimOf p (front ++ '(' :: (inside ++ [')'])) =
        front ++ '(' :: (inside ++ [')']) := by
    intro p hfirst hclose
    rw [trimOf_eq_self_iff, List.head?_append_of_ne_nil _ hne, hlast]
    refine ⟨hfirst, fun c hc => ?_⟩
    obtain rfl : ')' = c := Option.some.inj hc
    exact hclose
  have htrim := hends isBlank
    (fun c hc => hblank c (List.mem_of_mem_head? hc)) (by decide)
  have hticks := hends (· == backtick)
    (fun c hc => by simpa using fun h : c = backtick => hquote (h ▸ hc))
    (by decide)
  have hword := dropLeadWord_append hblank (inside ++ [')'])
  have hend : trimRightOf (· == ';') (front ++ '(' :: (inside ++ [')'])) =
      front ++ '(' :: (inside ++ [')']) := by
    rw [← List.cons_append, ← List.append_assoc]
    exact trimRightOf_concat _ _ (by decide)
  simp only [bare, trim, htrim, hticks, hword, hend]

namespace Written.Cited

variable (c : Cited)

theorem isBlank_front : ∀ d ∈ c.front, isBlank d = false :=
  fun _ hd => isBlank_of_mem_path (c.mem_front hd)

theorem backtick_not_mem_front : backtick ∉ c.front := by
  have hfront := c.front_induction (P := (· ≠ backtick))
    (fun d hd heq => absurd (heq ▸ hd) (by decide)) (by simp [backtick])
  exact fun h => hfront _ h rfl

theorem bare_text : bare c.text = c.text := by
  obtain ⟨d, rest, hfront, -⟩ := c.exists_front
  rw [text_eq]
  apply bare_append
  · simp [hfront]
  · exact c.isBlank_front
  · exact fun h => c.backtick_not_mem_front (List.mem_of_mem_head? h)

theorem text_ne_nil : c.text ≠ [] := by
  simp [text_eq]

theorem backtick_not_mem : backtick ∉ c.text := by
  have hopen : backtick ≠ '(' := by decide
  have hclose : backtick ≠ ')' := by decide
  simp [text_eq, c.backtick_not_mem_front, hopen, hclose,
    c.params.unquoted]

/-- A call is read from its citation, and its target from the last part of
the path. -/
theorem read?_text (owner : String) :
    Citation.read? owner c.text = some (c.citation owner) := by
  have hfront : trimRight c.front = c.front :=
    trimRightOf_eq_self_iff.2 fun d hd =>
      c.isBlank_front d (List.mem_of_getLast? hd)
  have hgroup : splitGroup? c.text = some (c.front, c.params.text) := by
    rw [text_eq, splitGroup?_append _ c.params.balanced, hfront,
      c.params.trimmed]
  have hmethod : splitMethod? c.front = some (c.receiver, c.method.text) :=
    splitMethod?_append c.receiver c.joint c.method
  have hreceiver : typeOfReceiver? owner c.receiver =
      some (c.target owner) :=
    typeOfReceiver?_path owner c.outer c.type
  simp only [Citation.read?, bare_text, hgroup, hmethod, hreceiver, citation,
    Option.bind_eq_bind, Option.bind_some]

end Written.Cited

end CallTrace.Reply
