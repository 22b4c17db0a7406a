/-
The grammar of citations, read in both directions.

A call may be cited by its method alone, or with a joint before the method
and what the method is called on before the joint: a path of names, or
nothing. Parameters in parentheses may follow. Whatever is written so is
read as the call that is meant, and nothing else is read as a call. What
may stand around the citation is taken off first.

Each stage of the reader is turned around once: the search for the
parenthesis that opens the parameter group, the cut before the method, and
the cut of the path. The parts that the three give are put together again
to the text that was read.
-/
import CallTrace.Proofs.Reply.Citation

namespace CallTrace.Reply

open Text

namespace Written

-- ============================================================ vocabulary

/-- Names that are joined. -/
structure Path where
  outer : List (Ident × Joint) := []
  last : Ident

namespace Path

def text (p : Path) : List Char :=
  p.outer.flatMap (fun (name, joint) => name.text ++ joint.text) ++
    p.last.text

/-- The path with one more name in front. -/
def within (name : Ident) (joint : Joint) (p : Path) : Path :=
  { p with outer := (name, joint) :: p.outer }

theorem text_within (name : Ident) (joint : Joint) (p : Path) :
    (p.within name joint).text = name.text ++ (joint.text ++ p.text) := by
  simp [text, within]

end Path

/-- What stands before the name of a method. -/
inductive Receiver where
  | alone
  /-- A joint, after a path or after nothing. -/
  | joined (path : Option Path) (joint : Joint)

namespace Receiver

/-- The path, as far as there is one. -/
def path : Receiver → Option Path
  | alone => none
  | joined path _ => path

def text : Receiver → List Char
  | alone => []
  | joined path joint => (path.map (·.text)).getD [] ++ joint.text

/-- The type that the call goes to, in the code of the type `owner`. -/
def target (owner : String) (r : Receiver) : String :=
  match r.path with
  | none => owner
  | some p =>
    let name := String.ofList p.last.text
    if selfReceivers.contains name then owner else name

end Receiver

/-- Parameters in parentheses, after any blanks. -/
structure Group where
  gap : List Char := []
  blank : ∀ c ∈ gap, isBlank c = true
  inside : List Char
  balanced : depthAfter? 0 inside = some 0

def Group.text (g : Group) : List Char :=
  g.gap ++ '(' :: (g.inside ++ [')'])

/-- A call that is cited, with nothing around it. -/
structure Reference where
  receiver : Receiver
  method : Ident
  group : Option Group

namespace Reference

variable (r : Reference)

/-- The citation without its parameters. -/
def call : List Char := r.receiver.text ++ r.method.text

def text : List Char := r.call ++ (r.group.map (·.text)).getD []

/-- What stands between the parentheses. -/
def params : List Char := (r.group.map fun g => trim g.inside).getD []

/-- The call that is meant. -/
def citation (owner : String) : Citation where
  targetType := r.receiver.target owner
  targetMethod := String.ofList r.method.text
  parameters := String.ofList r.params

end Reference

end Written

open Written

/-- A word that may stand before a call, with blanks after it, or nothing. -/
def IsLead (word : List Char) : Prop :=
  word = [] ∨ ∃ w ∈ ["new", "await", "return"], ∃ gap : List Char,
    word = w.toList ++ gap ∧ gap ≠ [] ∧ ∀ c ∈ gap, isBlank c = true

/-- The text `cs` is `core` with no more around it than blanks and
backticks, one of the words before a call, and semicolons behind it. -/
def Surrounded (cs core : List Char) : Prop :=
  ∃ front word tail, cs = front ++ (word ++ (core ++ tail)) ∧
    (∀ c ∈ front, isBlank c = true ∨ c = backtick) ∧ IsLead word ∧
    ∀ c ∈ tail, isBlank c = true ∨ c = backtick ∨ c = ';'

-- ======================================================== surroundings

theorem trimLeftOf_append (p : Char → Bool) (cs : List Char) :
    ∃ front, cs = front ++ trimLeftOf p cs ∧ ∀ c ∈ front, p c = true := by
  refine ⟨cs.takeWhile p, ?_, ?_⟩
  · exact List.takeWhile_append_dropWhile.symm
  · exact List.all_eq_true.1 List.all_takeWhile

/-- What is trimmed on both sides is of the given kind. -/
theorem trimOf_append (p : Char → Bool) (cs : List Char) :
    ∃ front tail, cs = front ++ (trimOf p cs ++ tail) ∧
      (∀ c ∈ front, p c = true) ∧ ∀ c ∈ tail, p c = true := by
  obtain ⟨front, hfront, hf⟩ := trimLeftOf_append p cs
  obtain ⟨tail, htail, ht⟩ := trimRightOf_append p (trimLeftOf p cs)
  refine ⟨front, tail, ?_, hf, List.all_eq_true.1 ht⟩
  rw [trimOf, ← htail]
  exact hfront

/-- What is dropped from the front of a call is one of the leading words.
-/
theorem dropLeadWord_append_lead (cs : List Char) :
    ∃ word, cs = word ++ dropLeadWord cs ∧ IsLead word := by
  unfold dropLeadWord
  dsimp only
  rcases hfind : List.findSome? _ ["new", "await", "return"] with _ | rest
  · exact ⟨[], rfl, .inl rfl⟩
  obtain ⟨w, hw, hafter⟩ := List.exists_of_findSome?_eq_some hfind
  split at hafter
  · rename_i hprefix
    obtain ⟨tail, rfl⟩ := List.isPrefixOf_iff_prefix.1 hprefix
    rw [← String.length_toList, List.drop_left] at hafter
    cases tail with
    | nil => cases hafter
    | cons c tail =>
      dsimp only at hafter
      split at hafter
      · rename_i hc
        obtain rfl := Option.some.inj hafter
        obtain ⟨gap, hgap, hblank⟩ := trimLeftOf_append isBlank tail
        refine ⟨w.toList ++ c :: gap, ?_, .inr ⟨w, hw, c :: gap, rfl, ?_⟩⟩
        · rw [Option.getD_some, List.append_assoc, List.cons_append]
          unfold trimLeft
          rw [← hgap]
        · exact ⟨List.cons_ne_nil _ _, List.forall_mem_cons.2 ⟨hc, hblank⟩⟩
      · cases hafter
  · cases hafter

/-- Blanks after a lead word belong to it. -/
theorem surrounded_lead {word gap core tail : List Char} (hw : IsLead word)
    (hgap : ∀ c ∈ gap, isBlank c = true)
    (htail : ∀ c ∈ tail, isBlank c = true ∨ c = backtick ∨ c = ';') :
    Surrounded (word ++ (gap ++ (core ++ tail))) core := by
  rcases hw with rfl | ⟨w, hw, more, rfl, hne, hmore⟩
  · exact ⟨gap, [], tail, rfl, fun c hc => .inl (hgap c hc), .inl rfl, htail⟩
  · refine ⟨[], w.toList ++ (more ++ gap), tail, ?_, by simp,
      .inr ⟨w, hw, more ++ gap, rfl, by simp [hne], ?_⟩, htail⟩
    · simp only [List.nil_append, List.append_assoc]
    · exact List.forall_mem_append.2 ⟨hmore, hgap⟩

/-- More blanks and backticks may stand around what is surrounded. -/
theorem Surrounded.wrap {cs core front tail : List Char}
    (h : Surrounded cs core)
    (hfront : ∀ c ∈ front, isBlank c = true ∨ c = backtick)
    (htail : ∀ c ∈ tail, isBlank c = true ∨ c = backtick) :
    Surrounded (front ++ (cs ++ tail)) core := by
  obtain ⟨front', word, tail', rfl, hfront', hword, htail'⟩ := h
  refine ⟨front ++ front', word, tail' ++ tail, ?_,
    List.forall_mem_append.2 ⟨hfront, hfront'⟩, hword,
    List.forall_mem_append.2 ⟨htail', ?_⟩⟩
  · simp only [List.append_assoc]
  · exact fun c hc => (htail c hc).imp_right .inl

theorem Surrounded.of_trim {cs core : List Char}
    (h : Surrounded (trim cs) core) : Surrounded cs core := by
  obtain ⟨front, tail, hcs, hfront, htail⟩ := trimOf_append isBlank cs
  rw [hcs]
  exact h.wrap (fun c hc => .inl (hfront c hc)) fun c hc => .inl (htail c hc)

theorem Surrounded.of_ticks {cs core : List Char}
    (h : Surrounded (trimOf (· == backtick) cs) core) :
    Surrounded cs core := by
  obtain ⟨front, tail, hcs, hfront, htail⟩ :=
    trimOf_append (· == backtick) cs
  rw [hcs]
  exact h.wrap (fun c hc => .inr (beq_iff_eq.1 (hfront c hc)))
    fun c hc => .inr (beq_iff_eq.1 (htail c hc))

/-- What is taken off the ends of a call. -/
theorem trimEnds_append (cs : List Char) :
    ∃ front tail, cs =
        front ++ (trim (trimRightOf (· == ';') (trim cs)) ++ tail) ∧
      (∀ c ∈ front, isBlank c = true) ∧
      ∀ c ∈ tail, isBlank c = true ∨ c = backtick ∨ c = ';' := by
  obtain ⟨front, tail, hcs, hfront, htail⟩ := trimOf_append isBlank cs
  obtain ⟨ends, hends, hsemi⟩ := trimRightOf_append (· == ';') (trim cs)
  obtain ⟨front', tail', hinner, hfront', htail'⟩ :=
    trimOf_append isBlank (trimRightOf (· == ';') (trim cs))
  change _ = front' ++ (trim _ ++ tail') at hinner
  have hmiddle := hends.trans (congrArg (· ++ ends) hinner)
  have hwhole := hcs.trans (congrArg (fun xs => front ++ (xs ++ tail)) hmiddle)
  refine ⟨front ++ front', tail' ++ (ends ++ tail), ?_,
    List.forall_mem_append.2 ⟨hfront, hfront'⟩, fun c hc => ?_⟩
  · simpa only [List.append_assoc] using hwhole
  · simp only [List.mem_append] at hc
    rcases hc with hc | hc | hc
    · exact .inl (htail' c hc)
    · exact .inr (.inr (beq_iff_eq.1 (List.all_eq_true.1 hsemi c hc)))
    · exact .inl (htail c hc)

/-- What is taken off a citation is what may stand around it. -/
theorem surrounded_bare (cs : List Char) : Surrounded cs (bare cs) := by
  -- From the outside in: blanks, backticks, blanks, the word, the ends.
  apply Surrounded.of_trim
  apply Surrounded.of_ticks
  apply Surrounded.of_trim
  obtain ⟨word, hword, hlead⟩ := dropLeadWord_append_lead
    (trim (trimOf (· == backtick) (trim cs)))
  obtain ⟨gap, tail, hrest, hgap, htail⟩ := trimEnds_append
    (dropLeadWord (trim (trimOf (· == backtick) (trim cs))))
  have hsurrounded : Surrounded _ (bare cs) :=
    surrounded_lead hlead hgap htail
  unfold bare at hsurrounded ⊢
  rwa [← hrest, ← hword] at hsurrounded

theorem bare_subset (cs : List Char) : bare cs ⊆ cs := by
  obtain ⟨front, word, tail, hcs, -, -, -⟩ := surrounded_bare cs
  intro c hc
  rw [hcs]
  simp [hc]

-- ================================================== the parameter group

/-- The depth after two texts is that after the second, from the depth
after the first. -/
theorem depthAfter?_append (depth : Nat) (xs ys : List Char) :
    depthAfter? depth (xs ++ ys) =
      (depthAfter? depth xs).bind (depthAfter? · ys) := by
  induction depth, xs using depthAfter?.induct with
  | case1 depth => rfl
  | case2 depth rest ih => exact ih
  | case3 => rfl
  | case4 depth rest ih => exact ih
  | case5 depth c rest hopen hzero hsucc ih =>
    rw [List.cons_append, depthAfter?, ih, depthAfter?]
    all_goals assumption

/-- The parenthesis that is found opens a group in which as many are left
open as were to be passed. -/
theorem openGroup?_eq_some {depth : Nat} {inside back within front :
    List Char} (h : openGroup? depth inside back = some (within, front)) :
    ∃ content, within = content ++ inside ∧
      back = content.reverse ++ '(' :: front ∧
      depthAfter? 0 content = some depth := by
  induction depth, inside, back using openGroup?.induct with
  | case1 => cases h
  | case2 depth inside rest ih =>
    rw [openGroup?] at h
    obtain ⟨content, rfl, rfl, hdepth⟩ := ih h
    refine ⟨content ++ [')'], by simp, by simp, ?_⟩
    rw [depthAfter?_append, hdepth]
    rfl
  | case3 inside rest =>
    rw [openGroup?] at h
    cases h
    exact ⟨[], rfl, rfl, rfl⟩
  | case4 inside rest depth ih =>
    rw [openGroup?] at h
    obtain ⟨content, rfl, rfl, hdepth⟩ := ih h
    refine ⟨content ++ ['('], by simp, by simp, ?_⟩
    rw [depthAfter?_append, hdepth]
    rfl
  | case5 depth inside c rest hclose hopen ih =>
    rw [openGroup?] at h
    · obtain ⟨content, rfl, rfl, hdepth⟩ := ih h
      refine ⟨content ++ [c], by simp, by simp, ?_⟩
      rw [depthAfter?_append, hdepth, Option.bind_some, depthAfter?]
      · rfl
      all_goals simp_all
    all_goals assumption

/-- A text is cut into what stands before its parameter group, and the
group. -/
theorem splitGroup?_eq_some {cs call params : List Char}
    (h : splitGroup? cs = some (call, params)) :
    ∃ group : Option Group, cs = call ++ (group.map (·.text)).getD [] ∧
      params = (group.map fun g => trim g.inside).getD [] := by
  rw [splitGroup?] at h
  split at h
  · rename_i rest hback
    obtain ⟨⟨inside, front⟩, hgroup, heq⟩ := Option.map_eq_some_iff.1 h
    obtain ⟨rfl, rfl⟩ := Prod.mk.inj heq
    obtain ⟨content, rfl, rfl, hdepth⟩ := openGroup?_eq_some hgroup
    obtain ⟨gap, hgap, hblank⟩ := trimRightOf_append isBlank front.reverse
    have hcs : cs = front.reverse ++ '(' :: (content ++ [')']) := by
      rw [← List.reverse_reverse cs, hback]
      simp
    refine ⟨some ⟨gap, List.all_eq_true.1 hblank, content, hdepth⟩, ?_, ?_⟩
    · simp only [Option.map_some, Option.getD_some, Group.text]
      rw [← List.append_assoc]
      unfold trimRight
      rw [← hgap, hcs]
    · simp
  · obtain ⟨rfl, rfl⟩ := Prod.mk.inj (Option.some.inj h)
    exact ⟨none, by simp, rfl⟩

-- ============================================================ the method

/-- A receiver ends in a joint, unless nothing stands there. -/
theorem receiver?_eq_some {back receiver : List Char}
    (h : receiver? back = some receiver) :
    back = [] ∧ receiver = [] ∨
      ∃ j : Joint, back.reverse = receiver ++ j.text := by
  unfold receiver? at h
  split at h
  · exact .inl ⟨rfl, (Option.some.inj h).symm⟩
  · obtain rfl := Option.some.inj h
    exact .inr ⟨.dot, by simp [Joint.text]⟩
  · obtain rfl := Option.some.inj h
    exact .inr ⟨.colons, by simp [Joint.text]⟩
  · obtain rfl := Option.some.inj h
    exact .inr ⟨.arrow, by simp [Joint.text]⟩
  · cases h

/-- A call is cut before its method, and at the joint if there is one. -/
theorem splitMethod?_eq_some {cs receiver method : List Char}
    (h : splitMethod? cs = some (receiver, method)) :
    isIdent method = true ∧
      (receiver = [] ∧ cs = method ∨
        ∃ j : Joint, cs = receiver ++ (j.text ++ method)) := by
  rw [splitMethod?] at h
  split at h
  · rename_i hident
    obtain ⟨front, hfront, heq⟩ := Option.map_eq_some_iff.1 h
    obtain ⟨rfl, rfl⟩ := Prod.mk.inj heq
    refine ⟨hident, ?_⟩
    have hcs : cs = (cs.reverse.dropWhile isIdentRest).reverse ++
        (cs.reverse.takeWhile isIdentRest).reverse := by
      rw [← List.reverse_append, List.takeWhile_append_dropWhile,
        List.reverse_reverse]
    rcases receiver?_eq_some hfront with ⟨hback, rfl⟩ | ⟨j, hback⟩
    · rw [hback] at hcs
      exact .inl ⟨rfl, hcs⟩
    · rw [hback] at hcs
      exact .inr ⟨j, by rw [← List.append_assoc]; exact hcs⟩
  · cases h

-- ============================================================= the path

/-- A text of which all pieces are names is a path. -/
theorem exists_path (seg cs : List Char)
    (h : (segmentsBy.go true seg cs).all isIdent = true) :
    ∃ p : Path, seg.reverse ++ cs = p.text := by
  -- A joint ends the piece under way and begins a path of its own.
  have hjoined : ∀ (j : Joint) (seg rest : List Char),
      (seg.reverse :: segmentsBy.go true [] rest).all isIdent = true →
      ((segmentsBy.go true [] rest).all isIdent = true →
        ∃ p : Path, [].reverse ++ rest = p.text) →
      ∃ p : Path, seg.reverse ++ (j.text ++ rest) = p.text := by
    intro j seg rest hall ih
    rw [List.all_cons, Bool.and_eq_true] at hall
    obtain ⟨p, hp⟩ := ih hall.2
    refine ⟨p.within ⟨seg.reverse, hall.1⟩ j, ?_⟩
    rw [Path.text_within, ← hp]
    rfl
  induction seg, cs using segmentsBy.go.induct true with
  | case1 seg =>
    rw [segmentsBy.go, List.all_cons, Bool.and_eq_true] at h
    exact ⟨⟨[], ⟨seg.reverse, h.1⟩⟩, List.append_nil _⟩
  | case2 seg rest ih =>
    rw [segmentsBy.go] at h
    exact hjoined .dot seg rest h ih
  | case3 seg rest ih =>
    rw [segmentsBy.go] at h
    exact hjoined .colons seg rest h ih
  | case4 seg rest harrows ih =>
    rw [segmentsBy.go, if_pos harrows] at h
    exact hjoined .arrow seg rest h ih
  | case5 seg rest hno => exact absurd rfl hno
  | case6 seg c rest hdot hcolon hdash ih =>
    rw [segmentsBy.go] at h
    · obtain ⟨p, hp⟩ := ih h
      exact ⟨p, by rw [← hp]; simp⟩
    all_goals assumption

/-- What has a type as a receiver is nothing or a path, and the type is
that of the path. -/
theorem typeOfReceiver?_eq_some {owner target : String}
    {receiver : List Char} (hline : '\n' ∉ receiver)
    (h : typeOfReceiver? owner receiver = some target) :
    ∃ p : Option Path, receiver = (p.map (·.text)).getD [] ∧
      ∀ j, target = (Receiver.joined p j).target owner := by
  have htype := h
  unfold typeOfReceiver? at h
  split at h
  · rename_i hempty
    rw [List.isEmpty_iff] at hempty
    exact ⟨none, hempty, fun _ => (Option.some.inj h).symm⟩
  split at h
  · rename_i hidents
    -- No line feed stands at the end of what is on one line.
    have hall : allIdents (path receiver) = true := by
      unfold upToFinalBreak at hidents
      simp only [Bool.or_eq_true, Bool.and_eq_true, beq_iff_eq] at hidents
      rcases hidents with hall | ⟨hlast, -⟩
      · exact hall
      · exact absurd (List.mem_of_getLast? hlast) hline
    obtain ⟨p, hp⟩ := exists_path [] receiver hall
    rw [List.reverse_nil, List.nil_append] at hp
    refine ⟨some p, hp, fun j => ?_⟩
    rw [hp] at htype
    have hpath := typeOfReceiver?_path owner p.outer p.last
    exact Option.some.inj (htype.symm.trans hpath)
  · cases h

-- ======================================================= both directions

/-- What is read as a call is cited in the grammar. -/
theorem exists_reference {owner : String} {cs : List Char} {c : Citation}
    (hline : '\n' ∉ bare cs) (h : Citation.read? owner cs = some c) :
    ∃ r : Reference, bare cs = r.text ∧ c = r.citation owner := by
  simp only [Citation.read?, Option.bind_eq_bind, Option.bind_eq_some_iff]
    at h
  obtain ⟨⟨call, params⟩, hgroup, ⟨receiver, method⟩, hmethod, target, htype,
    hc⟩ := h
  obtain rfl := Option.some.inj hc
  obtain ⟨group, hbare, rfl⟩ := splitGroup?_eq_some hgroup
  obtain ⟨hident, hcall⟩ := splitMethod?_eq_some hmethod
  rcases hcall with ⟨rfl, rfl⟩ | ⟨j, rfl⟩
  · refine ⟨⟨.alone, ⟨call, hident⟩, group⟩, hbare, ?_⟩
    obtain rfl : owner = target := Option.some.inj htype
    rfl
  · have hreceiver : '\n' ∉ receiver := by
      intro hmem
      apply hline
      rw [hbare]
      simp [hmem]
    obtain ⟨p, rfl, htarget⟩ := typeOfReceiver?_eq_some hreceiver htype
    refine ⟨⟨.joined p j, ⟨method, hident⟩, group⟩, ?_, ?_⟩
    · rw [hbare]
      simp only [Reference.text, Reference.call, Receiver.text,
        List.append_assoc]
    · rw [htarget j]
      rfl

namespace Written.Reference

variable (r : Reference)

/-- The method of a written reference is split off, and its receiver tells
the target. -/
theorem splitMethod?_call : ∃ receiver,
    splitMethod? r.call = some (receiver, r.method.text) ∧
      ∀ owner, typeOfReceiver? owner receiver =
        some (r.receiver.target owner) := by
  obtain ⟨receiver, method, group⟩ := r
  cases receiver with
  | alone =>
    refine ⟨[], ?_, fun owner => rfl⟩
    have hname : ∀ c ∈ method.text.reverse, isIdentRest c = true :=
      fun c hc => isIdentRest_of_mem method.isIdent (List.mem_reverse.1 hc)
    have hcut : (method.text.reverse ++ []).span isIdentRest =
        (method.text.reverse, []) := span_append hname (by simp)
    rw [List.append_nil, List.span_eq_takeWhile_dropWhile,
      Prod.mk.injEq] at hcut
    simp only [splitMethod?, call, Receiver.text, List.nil_append, hcut.1,
      hcut.2, List.reverse_reverse, method.isIdent, if_true, receiver?,
      Option.map_some]
  | joined path joint =>
    refine ⟨(path.map (·.text)).getD [], ?_, fun owner => ?_⟩
    · simp only [call, Receiver.text, List.append_assoc]
      exact splitMethod?_append _ joint method
    · cases path with
      | none => rfl
      | some p => exact typeOfReceiver?_path owner p.outer p.last

/-- A call ends in its method, and so in no blank and no parenthesis. -/
theorem exists_call : ∃ front c, r.call = front ++ [c] ∧
    isIdentRest c = true := by
  rcases List.eq_nil_or_concat r.method.text with hnil | ⟨name, c, hname⟩
  · exact absurd hnil (isIdent_ne_nil r.method.isIdent)
  · refine ⟨r.receiver.text ++ name, c, ?_, ?_⟩
    · rw [call, hname, List.concat_eq_append, List.append_assoc]
    · exact isIdentRest_of_mem r.method.isIdent (by simp [hname])

/-- The parameters of a written reference are split off. -/
theorem splitGroup?_text : splitGroup? r.text = some (r.call, r.params) := by
  obtain ⟨front, c, hcall, hc⟩ := r.exists_call
  cases hgroup : r.group with
  | none =>
    have hclose : c ≠ ')' := by
      rintro rfl
      exact absurd hc (by decide)
    have hback : r.call.reverse = c :: front.reverse := by simp [hcall]
    simp only [text, params, hgroup, Option.map_none, Option.getD_none,
      List.append_nil, splitGroup?, hback]
    split
    · rename_i heq
      exact absurd (List.cons.inj heq).1 hclose
    · rfl
  | some g =>
    have htrim : trimRight (r.call ++ g.gap) = r.call := by
      unfold trimRight trimRightOf
      rw [List.reverse_append, List.dropWhile_append_of_pos (by
        simpa using g.blank)]
      have hkept : trimRight r.call = r.call := by
        rw [hcall]
        exact trimRightOf_concat _ _ (isBlank_of_isIdentRest hc)
      exact hkept
    simp only [text, params, hgroup, Option.map_some, Option.getD_some,
      Group.text]
    rw [← List.append_assoc, splitGroup?_append _ g.balanced, htrim]

/-- What is cited in the grammar is read as the call that is meant. -/
theorem read?_of_bare {owner : String} {cs : List Char}
    (h : bare cs = r.text) :
    Citation.read? owner cs = some (r.citation owner) := by
  obtain ⟨receiver, hmethod, htype⟩ := r.splitMethod?_call
  simp only [Citation.read?, h, splitGroup?_text, hmethod, htype, citation,
    Option.bind_eq_bind, Option.bind_some]

/-- A reference without its parameters is made of names and joints. -/
theorem mem_call {d : Char} (h : d ∈ r.call) :
    isIdentRest d = true ∨ d ∈ ['.', ':', '-', '>'] := by
  rw [call, List.mem_append] at h
  rcases h with h | h
  · cases hreceiver : r.receiver with
    | alone => rw [hreceiver] at h; cases h
    | joined path joint =>
      rw [hreceiver, Receiver.text, List.mem_append] at h
      rcases h with h | h
      · cases path with
        | none => cases h
        | some p => exact mem_path h
      · exact .inr (joint.mem_text h)
  · exact .inl (isIdentRest_of_mem r.method.isIdent h)

/-- Nothing stands around a citation whose group follows at once. -/
theorem bare_text {g : Group} (hgroup : r.group = some g)
    (hgap : g.gap = []) : bare r.text = r.text := by
  have htext : r.text = r.call ++ '(' :: (g.inside ++ [')']) := by
    simp [text, hgroup, Group.text, hgap]
  obtain ⟨front, c, hcall, -⟩ := r.exists_call
  have hjoints : ['.', ':', '-', '>'].all
      (fun d => !isBlank d && d != backtick) = true := by decide
  have hchars : ∀ d ∈ r.call, isBlank d = false ∧ d ≠ backtick := by
    intro d hd
    rcases r.mem_call hd with hd | hd
    · refine ⟨isBlank_of_isIdentRest hd, ?_⟩
      intro htick
      subst htick
      exact absurd hd (by decide)
    · simpa using List.all_eq_true.1 hjoints d hd
  rw [htext]
  apply bare_append
  · simp [hcall]
  · exact fun d hd => (hchars d hd).1
  · exact fun hd => (hchars _ (List.mem_of_mem_head? hd)).2 rfl

end Written.Reference

/-- A path of names with a method at its end and balanced parameters is read
as just that call: its type is the last name of the path, or the owner when
there is no path or it ends in the current object. And whatever is read from
a citation on one line is what the citation, less what may stand around it,
is in the grammar. -/
theorem read_iff_reference (owner : String) :
    (∀ (r : Receiver) (m : Ident) (inside : List Char),
      depthAfter? 0 inside = some 0 →
      Citation.read? owner
          (r.text ++ (m.text ++ '(' :: (inside ++ [')']))) =
        some ⟨r.target owner, String.ofList m.text,
          String.ofList (trim inside)⟩) ∧
    ∀ cs : List Char, '\n' ∉ cs → Surrounded cs (bare cs) ∧
      ∀ c, Citation.read? owner cs = some c ↔
        ∃ r : Reference, bare cs = r.text ∧ c = r.citation owner := by
  constructor
  · intro r m inside hbalanced
    let g : Group := ⟨[], by simp, inside, hbalanced⟩
    let whole : Reference := ⟨r, m, some g⟩
    have htext : r.text ++ (m.text ++ '(' :: (inside ++ [')'])) =
        whole.text := by
      simp [whole, g, Reference.text, Reference.call, Group.text]
    rw [htext]
    exact whole.read?_of_bare (whole.bare_text rfl rfl)
  · intro cs hline
    refine ⟨surrounded_bare cs, fun c => ⟨?_, ?_⟩⟩
    · exact exists_reference fun hmem => hline (bare_subset cs hmem)
    · rintro ⟨r, hbare, rfl⟩
      exact r.read?_of_bare hbare

/-- A call in a call's parameters, and one with semicolons and a word around
it. -/
theorem read_iff_reference_nested :
    depthAfter? 0 "b(c), d".toList = some 0 ∧
    Citation.read? "Shop" "this->cart.add(b(c), d)".toList =
      some ⟨"cart", "add", "b(c), d"⟩ ∧
    '\n' ∉ "await Cart::total (x);".toList ∧
    ∃ r : Reference, bare "await Cart::total (x);".toList = r.text ∧
      r.citation "Shop" = ⟨"Cart", "total", "x"⟩ := by
  have hbalanced : depthAfter? 0 "b(c), d".toList = some 0 := by decide
  have hline : '\n' ∉ "await Cart::total (x);".toList := by decide
  obtain ⟨hread, hback⟩ := read_iff_reference "Shop"
  have hpath := hread
    (.joined (some ⟨[(⟨"this".toList, by decide⟩, .arrow)],
      ⟨"cart".toList, by decide⟩⟩) .dot) ⟨"add".toList, by decide⟩ _ hbalanced
  obtain ⟨r, hr, hc⟩ := ((hback _ hline).2 ⟨"Cart", "total", "x"⟩).1 (by decide)
  exact ⟨hbalanced, hpath, hline, r, hr, hc.symm⟩

end CallTrace.Reply
