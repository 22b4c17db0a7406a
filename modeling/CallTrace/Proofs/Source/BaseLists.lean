/-
Headers that name supertypes in parentheses.

A header may be a list of bases in parentheses, with arguments given by
keyword among them, and a colon after it. If the line ends with that colon,
what is read are the bases, and the arguments are left out. A body on the
same line is read in their place: a colon behind parentheses is taken for
the start of a clause, as it is where what stands in the parentheses are the
parameters of a constructor.
-/
import CallTrace.Proofs.Source.Declared
import CallTrace.Proofs.Source.Generics

namespace CallTrace.Source

open Text Text.Pattern

-- ======================================================= written entries

/-- The value of an argument: one line of text that ends neither its entry
nor the list, and opens no brackets that a type or a body stands in. -/
structure Value where
  text : List Char
  plain : ∀ c ∈ [',', ')', '<', '\x7b', '\n'], c ∉ text

/-- An entry of a list of bases. -/
inductive Entry where
  | base (type : Dotted)
  | argument (key : Word) (value : Value)

namespace Entry

def text : Entry → List Char
  | base type => type.text
  | argument key value => key.text ++ '=' :: value.text

def base? : Entry → Option Dotted
  | base type => some type
  | argument _ _ => none

end Entry

/-- The names of the bases among the entries. -/
def basesOf (entries : List Entry) : List (List Char) :=
  (entries.filterMap Entry.base?).map (·.name.text)

def entryList (entries : List Entry) : List Char :=
  joinWith comma (entries.map Entry.text)

/-- The entries in parentheses. -/
def baseList (entries : List Entry) : List Char :=
  '(' :: (entryList entries ++ [')'])

-- ============================================================ reading

/-- What an entry with a value in it is read as. -/
theorem splitNames_of_mem {cs : List Char} (hcomma : ',' ∉ cs)
    (hvalue : '=' ∈ cs) : splitNames cs = [] := by
  have htrim : '=' ∈ trim cs := mem_trimOf hvalue (by decide)
  rw [splitNames_of_not_mem hcomma, namesAmong,
    List.filter_cons_of_neg (by simp [htrim])]
  rfl

namespace Entry

variable (entry : Entry)

/-- An entry has none of the characters that end it or the list. -/
theorem not_mem_text {c : Char} (hc : c ∈ [',', ')', '<', '\x7b', '\n']) :
    c ∉ entry.text := by
  have hkind : ∀ c ∈ [',', ')', '<', '\x7b', '\n'],
      isDotted c = false ∧ isWord c = false ∧ c ≠ '=' :=
    forall_mem_of_all (by decide)
  obtain ⟨hdotted, hword, hvalue⟩ := hkind c hc
  cases entry with
  | base type => exact type.not_mem_text hdotted
  | argument key value =>
    have hkey : c ∉ key.text := fun h =>
      absurd (key.solid c h) (by simp [hword])
    simp [text, hkey, hvalue, value.plain c hc]

theorem splitNames_text :
    splitNames entry.text = (entry.base?.map (·.name.text)).toList := by
  have hcomma : ',' ∉ entry.text := entry.not_mem_text (by simp)
  cases entry with
  | base type => exact type.splitNames_text
  | argument key value => exact splitNames_of_mem hcomma (by simp [text])

end Entry

/-- A list of bases is split into its bases; keyword arguments are left
out. -/
theorem splitNames_entryList (entries : List Entry) :
    splitNames (entryList entries) = basesOf entries := by
  have hcomma : ∀ l ∈ entries.map Entry.text, ',' ∉ l := by
    intro l hl
    obtain ⟨entry, -, rfl⟩ := List.mem_map.1 hl
    exact entry.not_mem_text (by simp)
  have hlist := splitNames_joinWith hcomma
    (List.forall_mem_nil (isBlank · = true))
  rw [List.append_nil] at hlist
  rw [entryList, hlist, basesOf]
  clear hcomma hlist
  induction entries with
  | nil => rfl
  | cons entry entries ih =>
    rw [List.map_cons, List.flatMap_cons, ih, entry.splitNames_text]
    cases entry <;> rfl

/-- A list of bases has none of the characters that end it. -/
theorem not_mem_entryList {c : Char} (hc : c ∈ [')', '<', '\x7b', '\n'])
    (entries : List Entry) : c ∉ entryList entries := by
  have hcomma : ∀ c ∈ [')', '<', '\x7b', '\n'], c ∉ comma :=
    forall_mem_of_all (by decide)
  intro h
  rcases mem_of_mem_joinWith h with h | ⟨l, hl, h⟩
  · exact hcomma c hc h
  · obtain ⟨entry, -, rfl⟩ := List.mem_map.1 hl
    exact entry.not_mem_text (List.mem_cons_of_mem _ hc) h

/-- What follows the parentheses decides where the bases are looked for. -/
theorem namesOfHeader_baseList (entries : List Entry) (after : List Char) :
    namesOfHeader (baseList entries ++ after) =
      if (trim after).head? = some ':' then
        splitNames (beforeWhere (trim after).tail)
      else basesOf entries := by
  have hclose : ∀ c ∈ '(' :: entryList entries, (c != ')') = true := by
    intro c hc
    rw [bne_iff_ne]
    rintro rfl
    rcases List.mem_cons.1 hc with hc | hc
    · exact absurd hc (by decide)
    · exact not_mem_entryList (by simp) entries hc
  have htext : baseList entries ++ after =
      '(' :: entryList entries ++ ')' :: after := by simp [baseList]
  have hcut : cutAt ')' ('(' :: entryList entries ++ ')' :: after) =
      ('(' :: entryList entries, some after) := by
    rw [cutAt, span_append hclose (by simp)]
  have hgroup : namesOfHeader ('(' :: entryList entries ++ ')' :: after) =
      namesOfGroup ('(' :: entryList entries ++ ')' :: after) := rfl
  rw [htext, hgroup, namesOfGroup, hcut]
  simp only [List.drop_one, List.tail_cons, splitNames_entryList]
  split
  · rename_i line hline
    rw [hline, List.head?_cons, if_pos rfl, List.tail_cons]
  · rename_i hline
    rw [if_neg fun h => ?_]
    obtain ⟨line, h⟩ := List.head?_eq_some_iff.1 h
    exact hline line h

/-- A body behind the colon is read in place of the bases. -/
theorem namesOfHeader_same_line (entries : List Entry) (line : List Char) :
    namesOfHeader (baseList entries ++ ':' :: line) =
      splitNames (beforeWhere (trimRight line)) := by
  have htrim : trim (':' :: line) = ':' :: trimRight line :=
    trimRightOf_cons (by decide)
  rw [namesOfHeader_baseList, htrim, List.head?_cons, if_pos rfl,
    List.tail_cons]

-- ========================================================= declarations

/-- A class whose line ends behind its list of bases is told to have these
above it, in the order in which they stand. -/
theorem supertypes_baseList (d : Declared) (entries : List Entry)
    {before body : List Char}
    (h : d.Fresh before (baseList entries ++ ':' :: body))
    (hbody : lineEnds body = true) :
    supertypes (String.ofList (before ++ (d.text ++
      (baseList entries ++ ':' :: body)))) (String.ofList d.name) =
        namesTold (String.ofList d.name) (basesOf entries) := by
  obtain ⟨k, e, hfind, hrest⟩ := d.find?_text h rfl
  have hplain : ∀ c ∈ ['<', '\x7b', '\n'], c ∉ baseList entries := by
    intro c hc hmem
    have hlist := not_mem_entryList (List.mem_cons_of_mem _ hc) entries
    have hbrackets : ∀ c ∈ ['<', '\x7b', '\n'], c ≠ '(' ∧ c ≠ ')' :=
      forall_mem_of_all (by decide)
    simp [baseList, hlist, hbrackets c hc] at hmem
  have hheader : headerOf e.rest = baseList entries := by
    rw [hrest]
    exact headerOf_append (hplain _ (by simp)) (hplain _ (by simp))
      (.inr ⟨rfl, hbody⟩)
  have htrim : trim (baseList entries) = baseList entries := by
    refine trimOf_eq_self_iff.2 ⟨?_, ?_⟩
    · rintro c ⟨⟩
      decide
    · rw [baseList, ← List.cons_append, List.getLast?_concat]
      rintro c ⟨⟩
      decide
  have hnames := namesOfHeader_baseList entries []
  rw [List.append_nil] at hnames
  rw [supertypes_of_declared (by simpa using hfind), hheader,
    (strips_of_not_mem (hplain _ (by simp))).stripGenerics, htrim, hnames]
  rfl

def cartEntries : List Entry :=
  [.base ⟨[Word.of "abc"], Word.of "ABC"⟩,
    .base ⟨[Word.of "trade", Word.of "core"], Word.of "Crate"⟩,
    .argument (Word.of "metaclass")
      ⟨"Meta".toList, forall_mem_of_all (by decide)⟩]

/-- A class with two bases and a keyword argument, of which one base is
told. -/
theorem supertypes_baseList_cart :
    cartClass.Fresh [] (baseList cartEntries ++ ":\n  pass\n".toList) ∧
      lineEnds "\n  pass\n".toList = true ∧
      supertypes ("class Cart(abc.ABC, trade.core.Crate, metaclass=Meta):" ++
        "\n  pass\n") "Cart" = ["Crate"] := by
  have hfresh : cartClass.Fresh []
      (baseList cartEntries ++ ":\n  pass\n".toList) := ⟨rfl, rfl⟩
  have hbody : lineEnds "\n  pass\n".toList = true := by decide
  have htold : namesTold "Cart" (basesOf cartEntries) = ["Crate"] := by
    decide +kernel
  have hcontent : "class Cart(abc.ABC, trade.core.Crate, metaclass=Meta):" ++
      "\n  pass\n" = String.ofList ([] ++ (cartClass.text ++
        (baseList cartEntries ++ ":\n  pass\n".toList))) := by
    decide +kernel
  have hname : "Cart" = String.ofList cartClass.name := by decide
  rw [hcontent, ← htold, hname]
  exact ⟨hfresh, hbody, supertypes_baseList cartClass cartEntries hfresh
    hbody⟩

/-- The same class with its body on the line of the header. -/
theorem supertypes_same_line :
    supertypes "class N(B):\n    pass\n" "N" = ["B"] ∧
      supertypes "class N(B): pass\n" "N" = ["pass"] := by
  have hread : ∀ (content : String) (rest : List Char),
      (find? (declaration "N".toList) content.toList).map (·.2.rest) =
        some rest → '<' ∉ headerOf rest →
      supertypes content "N" =
        namesTold "N" (namesOfHeader (trim (headerOf rest))) := by
    intro content rest hfind hplain
    obtain ⟨⟨k, e⟩, hfound, rfl⟩ := Option.map_eq_some_iff.1 hfind
    rw [supertypes_of_declared hfound,
      (strips_of_not_mem hplain).stripGenerics]
  constructor
  · rw [hread _ "(B):\n    pass\n".toList (by decide +kernel) (by decide)]
    decide +kernel
  · have hheader : trim (headerOf "(B): pass\n".toList) =
        baseList [.base ⟨[], Word.of "B"⟩] ++ ':' :: " pass".toList := by
      decide
    rw [hread _ "(B): pass\n".toList (by decide +kernel) (by decide),
      hheader, namesOfHeader_same_line]
    decide +kernel

end CallTrace.Source
