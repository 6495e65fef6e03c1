import ShExCompact.Proofs.Reading.LiteralTexts
import ShExCompact.Proofs.Schemas.FacetValues

/-! Where the node kinds of a schema are written. A node kind stands before its reference and its
facets, and of the facets with one keyword the last one counts. The shapes that a document declares
have the node kinds that are written between the braces of their definitions, in the same order: no
phrase adds any, and none gets lost. -/
namespace ShExCompact

/-! ### Written node kinds -/

/-- Tokens that tell where node kinds stand and which facets they have: braces, the words of node
kinds and those of facets. -/
def Token.isMarked : Token → Bool
  | punct sign => sign = .openBrace || sign = .closeBrace
  | keyword word => (keyword word).nodeKind?.isSome || decide (word ∈ Keyword.facets)
  | _ => false

namespace Facets

/-- Facets as they are declared: their keywords, each before its argument. -/
def spell (declared : List (Keyword × Token)) : List Token :=
  declared.flatMap fun entry => [.keyword entry.1, entry.2]

/-- The facets of a node kind are those that are declared for it. Every one is admitted there, with
an argument of its own kind, and of those with one keyword the last one counts. -/
structure Declared (context : Context) (kind : NodeKind) (declared : List (Keyword × Token))
    (facets : Facets) : Prop where
  admitted : ∀ entry ∈ declared, entry.1 ∈ kind.facetWords ∧
    ∃ said, Facet.Means context entry.1 entry.2 said
  last : ∀ word,
    Option.Rel (Facet.Means context word) (declared.reverse.lookup word) (facets.get? word)

end Facets

/-- The node kinds that are written in tokens, in order: first those that stand between no braces,
then those of each definition, which are the ones between its own braces. Definitions are in the
order in which they are closed, and those in a reference belong to no node kind around them. -/
inductive NodeKind.Written (context : Context) :
    List Token → List ValueClass → List (List ValueClass) → Prop where
  | nil : Written context [] [] []
  | other (plain : token.isMarked = false) (rest : Written context tokens kinds shapes) :
      Written context (token :: tokens) kinds shapes
  | braces (body : Written context front own inside) (rest : Written context tokens kinds shapes) :
      Written context (.punct .openBrace :: (front ++ .punct .closeBrace :: tokens)) kinds
        (inside ++ own :: shapes)
  | kind (begins : token.nodeKind? = some kind)
      (reference : (optional (Grammar.shapeRef (Grammar.nested left))).Derives context front
        journal target later)
      (bare : kind = .literal → target = none) (body : Written context front [] inside)
      (declared : Facets.Declared context kind entries facets)
      (rest : Written context tokens kinds shapes) :
      Written context (token :: (front ++ (Facets.spell entries ++ tokens)))
        (.kind kind facets target :: kinds) (inside ++ shapes)

/-! ### Facets -/

namespace Facets

variable {context : Context} {kind : NodeKind} {facets : Facets}

theorem Declared.nil : Declared context kind [] .empty where
  admitted := List.forall_mem_nil _
  last word := by
    rw [get?_empty]
    exact .none

/-- One more facet replaces those with its keyword, and keeps the others. -/
theorem Declared.snoc {facet : Facet} (declared : Declared context kind entries facets)
    (admitted : facet.keyword ∈ kind.facetWords)
    (means : Facet.Means context facet.keyword token facet.value) :
    Declared context kind (entries ++ [(facet.keyword, token)]) (facets.set facet) where
  admitted := List.forall_mem_append.mpr ⟨declared.admitted,
    List.forall_mem_singleton.mpr ⟨admitted, _, means⟩⟩
  last word := by
    rw [List.reverse_append, List.reverse_singleton, List.singleton_append]
    by_cases same : word = facet.keyword
    · subst same
      rw [List.lookup_cons_self, get?_set_self]
      exact .some means
    · rw [List.lookup_cons, beq_eq_false_iff_ne.mpr same, get?_set_of_ne _ same]
      exact declared.last word

/-- What is not admitted is not set. -/
theorem Declared.get?_eq_none (declared : Declared context kind entries facets)
    (outside : word ∉ kind.facetWords) : facets.get? word = none := by
  have absent : entries.reverse.lookup word = none := by
    refine List.lookup_eq_none_iff.mpr fun entry member => ?_
    have admitted := (declared.admitted entry (List.mem_reverse.mp member)).1
    exact bne_iff_ne.mpr (ne_of_mem_of_not_mem admitted outside).symm
  have last := declared.last word
  rw [absent] at last
  generalize facets.get? word = field at last ⊢
  cases last
  rfl

theorem facetValue_means (suits : Parser.FacetArgument.Suits word argument)
    (derives : (Grammar.facetValue argument).Derives context tokens journal facet later) :
    later = journal ∧ facet.keyword = word ∧
      ∃ token, tokens = [token] ∧ Facet.Means context word token facet.value := by
  cases argument with
  | string build =>
    obtain ⟨text, rfl, token, rfl, means, rfl⟩ := Reading.of_derives_map derives
    obtain ⟨rfl, each⟩ := suits
    obtain ⟨keyword, said⟩ := each text
    exact ⟨rfl, keyword, token, rfl, said ▸ .pattern means⟩
  | unsigned build =>
    obtain ⟨number, rfl, token, rfl, ⟨fits⟩, rfl⟩ := Reading.of_derives_map derives
    obtain ⟨counts, each⟩ := suits
    obtain ⟨keyword, said⟩ := each number
    obtain ⟨denotes, unsigned⟩ := Numeral.denotes_of_uint32? fits
    have small : (number.toNat : Int) < UInt32.size := by exact_mod_cast number.toNat_lt_size
    exact ⟨rfl, keyword, _, rfl, said ▸ .count counts denotes unsigned small⟩
  | signed build =>
    obtain ⟨number, rfl, token, rfl, ⟨fits⟩, rfl⟩ := Reading.of_derives_map derives
    obtain ⟨bounds, each⟩ := suits
    obtain ⟨keyword, said⟩ := each number
    exact ⟨rfl, keyword, _, rfl, said ▸ .bound bounds (Numeral.denotes_of_int64? fits)
      number.minValue_le_toInt number.toInt_le⟩

/-- Facets are set one after the other, from left to right. -/
theorem Declared.repeats (admits : kind ≠ .blank)
    (repeats : (Grammar.facet (kind = .literal)).Repeats context tokens journal added later)
    (declared : Declared context kind entries facets) :
    later = journal ∧ ∃ more, tokens = Facets.spell more ∧
      Declared context kind (entries ++ more) (added.foldl set facets) := by
  induction repeats generalizing entries facets with
  | done => exact ⟨rfl, [], rfl, (List.append_nil entries).symm ▸ declared⟩
  | more first _ ih =>
    obtain ⟨_, _, argument, _, rfl, ⟨_, rfl, ⟨known⟩, rfl⟩, derives⟩ := first
    obtain ⟨rfl, rfl, token, rfl, means⟩ :=
      facetValue_means (Parser.facetArgument?_suits known) derives
    obtain ⟨rfl, more, rfl, all⟩ :=
      ih (declared.snoc (Parser.facetArgument?_mem admits known) means)
    rw [List.append_assoc] at all
    exact ⟨rfl, _ :: more, rfl, all⟩

theorem Declared.of_derives (admits : kind ≠ .blank)
    (derives : (Grammar.facets (kind = .literal)).Derives context tokens journal facets later) :
    later = journal ∧ ∃ entries, tokens = Facets.spell entries ∧
      Declared context kind entries facets := by
  obtain ⟨front, _, added, _, rfl, repeats, rfl, rfl, rfl⟩ := derives
  rw [List.append_nil]
  exact Declared.repeats admits repeats .nil

end Facets

/-! ### What is written in tokens -/

namespace NodeKind.Written

variable {context : Context} {kinds kinds' : List ValueClass}
  {shapes shapes' : List (List ValueClass)}

theorem append (first : Written context front kinds shapes)
    (second : Written context rest kinds' shapes') :
    Written context (front ++ rest) (kinds ++ kinds') (shapes ++ shapes') := by
  induction first with
  | nil => exact second
  | other plain _ ih => exact .other plain ih
  | braces body _ _ ih =>
    rw [List.cons_append, List.append_assoc, List.cons_append, List.append_assoc, List.cons_append]
    exact .braces body ih
  | kind begins reference bare body declared _ _ ih =>
    rw [List.cons_append, List.append_assoc, List.append_assoc, List.cons_append,
      List.append_assoc]
    exact .kind begins reference bare body declared ih

theorem plain (plain : ∀ token ∈ tokens, Token.isMarked token = false) :
    Written context tokens [] [] := by
  induction tokens with
  | nil => exact .nil
  | cons token tokens ih =>
    obtain ⟨here, behind⟩ := List.forall_mem_cons.mp plain
    exact .other here (ih behind)

/-- Every node kind that is written has facets as they are declared for it. -/
theorem declared {node : NodeKind} (written : Written context tokens kinds shapes)
    (member : ValueClass.kind node facets target ∈ kinds ++ shapes.flatten) :
    ∃ entries, Facets.Declared context node entries facets := by
  induction written with
  | nil => cases member
  | other _ _ ih => exact ih member
  | braces _ _ inside behind =>
    simp only [List.flatten_append, List.flatten_cons, List.mem_append] at member inside behind
    rcases member with here | held | own | later
    · exact behind (.inl here)
    · exact inside (.inr held)
    · exact inside (.inl own)
    · exact behind (.inr later)
  | kind _ _ _ _ declared _ inside behind =>
    rw [List.cons_append] at member
    rcases List.mem_cons.mp member with same | other
    · cases same
      exact ⟨_, declared⟩
    · simp only [List.flatten_append, List.nil_append, List.mem_append] at other inside behind
      rcases other with here | held | later
      · exact behind (.inl here)
      · exact inside held
      · exact behind (.inr later)

end NodeKind.Written

/-! ### Phrases -/

/-- The node kinds of shapes that are declared. -/
def Registration.kinds (entries : List Registration) : List (List ValueClass) :=
  entries.map fun entry => entry.shape.kinds

/-- Some node kinds are held at first and others in the end. These are the first ones and those that
are written in some tokens between no braces, and the definitions in the tokens are those of the
shapes that are declared on the way. -/
def Journal.Accounts (context : Context) (tokens : List Token) (before after : List ValueClass)
    (journal later : Journal) : Prop :=
  ∃ entries kinds, later.log = journal.log ++ entries ∧
    NodeKind.Written context tokens kinds (Registration.kinds entries) ∧ after = before ++ kinds

namespace Journal.Accounts

variable {context : Context} {before between after : List ValueClass}
  {journal middle later : Journal}

theorem plain (log : later.log = journal.log)
    (plain : ∀ token ∈ tokens, Token.isMarked token = false) (held : List ValueClass) :
    Accounts context tokens held held journal later :=
  ⟨[], [], log.trans (List.append_nil _).symm, .plain plain, (List.append_nil held).symm⟩

theorem refl (held : List ValueClass) : Accounts context [] held held journal journal :=
  .plain rfl (List.forall_mem_nil _) held

theorem trans (first : Accounts context front before between journal middle)
    (second : Accounts context rest between after middle later) :
    Accounts context (front ++ rest) before after journal later := by
  obtain ⟨entries, kinds, log, written, rfl⟩ := first
  obtain ⟨entries', kinds', log', written', rfl⟩ := second
  refine ⟨entries ++ entries', kinds ++ kinds', ?_, ?_, List.append_assoc ..⟩
  · rw [log', log, List.append_assoc]
  · rw [Registration.kinds, List.map_append]
    exact written.append written'

/-- What is held besides stays. -/
theorem besides (accounts : Accounts context tokens before after journal later)
    (held : List ValueClass) :
    Accounts context tokens (held ++ before) (held ++ after) journal later := by
  obtain ⟨entries, kinds, log, written, rfl⟩ := accounts
  exact ⟨entries, kinds, log, written, (List.append_assoc ..).symm⟩

end Journal.Accounts

namespace Phrase

variable {g h : Phrase α} {i : α → Phrase β}

/-! ### Phrases without node kinds -/

/-- A phrase declares no shapes, and no token of it is marked. -/
def Plain (g : Phrase α) : Prop :=
  ∀ ⦃context tokens journal value later⦄, g.Derives context tokens journal value later →
    later.log = journal.log ∧ ∀ token ∈ tokens, token.isMarked = false

namespace Plain

theorem done (value : α) : Plain (pure value) := by
  rintro context tokens journal result later ⟨rfl, -, rfl⟩
  exact ⟨rfl, List.forall_mem_nil _⟩

theorem bind (first : Plain g) (later : ∀ value, Plain (i value)) : Plain (g >>= i) := by
  rintro context tokens journal result last ⟨front, rest, value, middle, rfl, derives, derives'⟩
  obtain ⟨log, plain⟩ := first derives
  obtain ⟨log', plain'⟩ := later value derives'
  exact ⟨log'.trans log, List.forall_mem_append.mpr ⟨plain, plain'⟩⟩

theorem orElse (left : Plain g) (right : Plain h) : Plain (g <|> h) := by
  rintro context tokens journal value later (derives | derives)
  · exact left derives
  · exact right derives

theorem many (plain : Plain g) : Plain (many g) := by
  intro context tokens journal values later repeats
  change g.Repeats context tokens journal values later at repeats
  induction repeats with
  | done => exact ⟨rfl, List.forall_mem_nil _⟩
  | more first _ ih =>
    obtain ⟨log, here⟩ := plain first
    obtain ⟨log', behind⟩ := ih
    exact ⟨log'.trans log, List.forall_mem_append.mpr ⟨here, behind⟩⟩

theorem several (plain : Plain g) : Plain (several g) :=
  .bind plain fun _ => .bind (.many plain) fun _ => .done _

theorem optional (plain : Plain g) : Plain (optional g) := by
  refine .orElse ?_ (.done none)
  rw [map_eq_pure_bind]
  exact .bind plain fun value => .done (some value)

theorem terminal {Means : Context → Draft → Token → α → Prop}
    (plain : ∀ {context draft token value}, Means context draft token value →
      token.isMarked = false) : Plain (terminal Means) := by
  rintro context tokens journal value later ⟨token, rfl, means, rfl⟩
  exact ⟨rfl, List.forall_mem_singleton.mpr (plain means)⟩

theorem exactly (plain : token.isMarked = false) : Plain (exactly token) :=
  .terminal fun same => same ▸ plain

theorem sign (plain : (Token.punct punct).isMarked = false) : Plain (sign punct) := .exactly plain

theorem word (plain : (Token.keyword keyword).isMarked = false) : Plain (word keyword) :=
  .exactly plain

theorem mark (plain : (Token.punct punct).isMarked = false) : Plain (mark punct) :=
  .orElse (.bind (.sign plain) fun _ => .done true) (.done false)

theorem declare {act : Draft → Draft}
    {valid : ∀ journal : Journal, Journal.Step journal (journal.declare act)} :
    Plain (change (·.declare act) valid) := by
  rintro context tokens journal value later ⟨rfl, rfl⟩
  exact ⟨rfl, List.forall_mem_nil _⟩

theorem iriOf (means : Grammar.IriOf context draft token iri) : token.isMarked = false := by
  cases means <;> rfl

theorem iri : Plain Grammar.iri := .terminal iriOf

theorem label : Plain Grammar.label := by
  refine .terminal fun means => ?_
  cases means with
  | blank => rfl
  | iri means => exact iriOf means

theorem predicate : Plain Grammar.predicate := by
  refine .terminal fun means => ?_
  cases means with
  | type => rfl
  | iri means => exact iriOf means

theorem reference : Plain Grammar.reference := by
  refine .orElse (.terminal fun means => ?_) (.bind (.sign rfl) fun _ => .label)
  cases means
  rfl

theorem literal : Plain Grammar.literal := by
  refine .orElse (.bind (.terminal fun means => ?_) fun _ =>
    .bind (.orElse (.terminal fun means => ?_) (.orElse ?_ (.done _))) fun _ => .done _)
    (.terminal fun means => ?_)
  · cases means <;> rfl
  · cases means
    rfl
  · exact .bind (.sign rfl) fun _ => .bind .iri fun _ => .done _
  · obtain ⟨plain⟩ := means
    unfold Parser.plainLiteral? at plain
    split at plain <;> first | rfl | cases plain

theorem cardinality : Plain Grammar.cardinality :=
  .terminal fun means => by cases means <;> rfl

theorem action : Plain Grammar.action := by
  refine .bind (.sign rfl) fun _ => .bind .iri fun _ => .bind (.terminal fun means => ?_) fun _ =>
    .done _
  cases means
  rfl

theorem actions : Plain Grammar.actions := .bind (.many .action) fun _ => .done _

theorem exclusions : Plain (Phrase.many Grammar.exclusion) :=
  .many (.bind (.sign rfl) fun _ => .bind .iri fun _ => .bind (.mark rfl) fun _ => .done _)

theorem valueSet : Plain Grammar.valueSet := by
  have iriRange : Plain Grammar.iriRange := by
    refine .orElse (.bind .iri fun _ => .orElse ?_ (.done _)) ?_
    · exact .bind (.sign rfl) fun _ => .bind .exclusions fun _ => .done _
    · exact .bind (.sign rfl) fun _ => .bind (.mark rfl) fun _ => .bind .exclusions fun _ =>
        .done _
  refine .bind (.sign rfl) fun _ => .bind (.many ?_) fun _ => .bind (.sign rfl) fun _ => .done _
  exact .orElse iriRange (.bind .literal fun _ => .done _)

theorem annotated : Plain Grammar.annotation := by
  refine .bind (.sign rfl) fun _ => .bind .iri fun _ => .bind (.orElse ?_ ?_) fun _ => .done _
  · exact .bind .iri fun _ => .done _
  · exact .bind .literal fun _ => .done _

theorem senseFlags : Plain Grammar.senseFlags :=
  .orElse (.bind (.sign rfl) fun _ => .bind (.mark rfl) fun _ => .done _)
    (.orElse (.bind (.sign rfl) fun _ => .bind (.mark rfl) fun _ => .done _) (.done _))

theorem clause : Plain Grammar.clause := by
  refine .orElse ?_ (.orElse ?_ ?_)
  · exact .bind (.sign rfl) fun _ => .bind (.several .label) fun _ => .done _
  · exact .bind (.word rfl) fun _ => .bind (.several .predicate) fun _ => .done _
  · exact .bind (.word rfl) fun _ => .done _

theorem directive : Plain Grammar.directive := by
  have reference : Plain (Phrase.terminal Grammar.ReferenceOf) :=
    .terminal fun means => by cases means; rfl
  have name : Plain (Phrase.terminal Grammar.PrefixOf) :=
    .terminal fun means => by cases means; rfl
  exact .orElse (.bind (.word rfl) fun _ => .bind reference fun _ => .declare)
    (.bind (.word rfl) fun _ => .bind name fun _ => .bind reference fun _ => .declare)

theorem startActions : Plain Grammar.startActions :=
  .bind (.several .action) fun _ => .declare

end Plain

/-! ### Phrases that hold node kinds -/

variable {before : List ValueClass} {all : α → List ValueClass} {all' : β → List ValueClass}

/-- Behind the node kinds `before`, a phrase reads those that are written in its tokens. `all` are
held in its value, and the others are those of the shapes that it declares. -/
def Accounts (before : List ValueClass) (g : Phrase α) (all : α → List ValueClass) : Prop :=
  ∀ ⦃context tokens journal value later⦄, g.Derives context tokens journal value later →
    Journal.Accounts context tokens before (all value) journal later

/-- All node kinds that are written in a phrase are those of the shapes that it declares. -/
def Closed (g : Phrase α) : Prop := Accounts [] g fun _ => []

theorem Plain.closed (plain : Plain g) : Closed g := by
  intro context tokens journal value later derives
  obtain ⟨log, plain⟩ := plain derives
  exact .plain log plain []

namespace Accounts

theorem done (same : all value = before) : Accounts before (pure value) all := by
  rintro context tokens journal result later ⟨rfl, rfl, rfl⟩
  rw [same]
  exact .refl before

theorem never : Accounts before (failure : Phrase α) all := fun _ _ _ _ _ never => never.elim

theorem bind (first : Accounts before g all)
    (later : ∀ value, Accounts (all value) (i value) all') : Accounts before (g >>= i) all' := by
  rintro context tokens journal result last ⟨front, rest, value, middle, rfl, derives, derives'⟩
  exact (first derives).trans (later value derives')

theorem orElse (left : Accounts before g all) (right : Accounts before h all) :
    Accounts before (g <|> h) all := by
  rintro context tokens journal value later (derives | derives)
  · exact left derives
  · exact right derives

theorem behind (accounts : Accounts [] g all) (before : List ValueClass) :
    Accounts before g fun value => before ++ all value := by
  intro context tokens journal value later derives
  have besides := (accounts derives).besides before
  rwa [List.append_nil] at besides

theorem many (accounts : Accounts [] g all) :
    Accounts [] (many g) fun values => values.flatMap all := by
  intro context tokens journal values later repeats
  change g.Repeats context tokens journal values later at repeats
  induction repeats with
  | done => exact .refl []
  | @more _ _ value _ _ _ _ first _ ih =>
    have others := ih.besides (all value)
    rw [List.append_nil] at others
    exact (accounts first).trans others

/-- A phrase that holds no node kinds may stand before any other. -/
theorem after (closed : Closed g) (later : ∀ value, Accounts before (i value) all') :
    Accounts before (g >>= i) all' := by
  refine .bind (closed.behind before) fun value => ?_
  rw [List.append_nil]
  exact later value

theorem skip (plain : Plain g) (later : ∀ value, Accounts before (i value) all') :
    Accounts before (g >>= i) all' := .after plain.closed later

theorem optional (accounts : Accounts [] g all) :
    Accounts [] (optional g) fun value => value.toList.flatMap all := by
  refine .orElse ?_ (.done rfl)
  rw [map_eq_pure_bind]
  exact .bind accounts fun value => .done (List.flatMap_singleton ..)

theorem separated {separator : Phrase Unit} (between : Plain separator)
    (accounts : Accounts [] g all) :
    Accounts [] (separated separator g) fun values => values.flatMap all := by
  have others : Accounts [] (Phrase.many do separator; g) _ :=
    .many (.skip between fun _ => accounts)
  refine .bind accounts fun first => .bind (others.behind _) fun rest => .done ?_
  exact List.flatMap_cons

theorem within {inner : Option (Phrase TripleExpr)} {phrase : Phrase TripleExpr → Phrase α}
    (part : ∀ body ∈ inner, Accounts before (phrase body) all) :
    Accounts before (within inner phrase) all := by
  cases inner with
  | none => exact .never
  | some body => exact part body rfl

end Accounts

namespace Closed

theorem done (value : α) : Closed (pure value) := Accounts.done rfl

theorem bind (first : Closed g) (later : ∀ value, Closed (i value)) : Closed (g >>= i) :=
  Accounts.bind first later

theorem orElse (left : Closed g) (right : Closed h) : Closed (g <|> h) :=
  Accounts.orElse left right

theorem many (closed : Closed g) : Closed (many g) := by
  intro context tokens journal values later derives
  have accounts : Journal.Accounts context tokens [] (values.flatMap fun _ => []) journal later :=
    Accounts.many closed derives
  rwa [List.flatMap_eq_nil_iff.mpr fun _ _ => rfl] at accounts

theorem optional (closed : Closed g) : Closed (optional g) := by
  refine .orElse ?_ (.done none)
  rw [map_eq_pure_bind]
  exact .bind closed fun value => .done (some value)

theorem separated {separator : Phrase Unit} (between : Plain separator) (closed : Closed g) :
    Closed (separated separator g) :=
  .bind closed fun _ => .bind (.many (.bind between.closed fun _ => closed)) fun _ => .done _

end Closed

/-! ### Declarations -/

/-- A definition is the last one that is closed in its tokens, and the only one there that is not
declared. -/
def Defines (g : Phrase Shape) : Prop :=
  ∀ ⦃context tokens journal shape later⦄, g.Derives context tokens journal shape later →
    ∃ entries, later.log = journal.log ++ entries ∧
      NodeKind.Written context tokens [] (Registration.kinds entries ++ [shape.kinds])

/-- A phrase declares one shape with the given node kinds, and nothing of it is written there. -/
def Declares (kinds : List ValueClass) (g : Phrase α) : Prop :=
  ∀ ⦃context tokens journal value later⦄, g.Derives context tokens journal value later →
    (∀ token ∈ tokens, Token.isMarked token = false) ∧
      ∃ entry, later.log = journal.log ++ [entry] ∧ entry.shape.kinds = kinds

theorem Declares.inPlace (shape : Shape) : Declares shape.kinds (Phrase.inPlace shape) := by
  rintro context tokens journal label later ⟨rfl, -, rfl⟩
  exact ⟨List.forall_mem_nil _, .inPlace _ shape, rfl, rfl⟩

theorem Declares.stated (label : Label) (shape : Shape) :
    Declares shape.kinds (change (·.stated label shape) (.stated label shape)) := by
  rintro context tokens journal value later ⟨rfl, rfl⟩
  exact ⟨List.forall_mem_nil _, .stated label shape, rfl, rfl⟩

theorem Declares.skip (plain : Plain g) (later : ∀ value, Declares kinds (i value)) :
    Declares kinds (g >>= i) := by
  rintro context tokens journal result last ⟨front, rest, value, middle, rfl, derives, derives'⟩
  obtain ⟨log, plain⟩ := plain derives
  obtain ⟨plain', entry, log', same⟩ := later value derives'
  exact ⟨List.forall_mem_append.mpr ⟨plain, plain'⟩, entry, log ▸ log', same⟩

/-- A definition that is declared behind its braces. -/
theorem Defines.declared {g : Phrase Shape} {i : Shape → Phrase β} (defines : Defines g)
    (declares : ∀ shape, Declares shape.kinds (i shape)) : Closed (g >>= i) := by
  rintro context tokens journal result last ⟨front, rest, shape, middle, rfl, derives, derives'⟩
  obtain ⟨entries, log, written⟩ := defines derives
  obtain ⟨plain, entry, log', same⟩ := declares shape derives'
  refine ⟨entries ++ [entry], [], ?_, ?_, rfl⟩
  · rw [log', log, List.append_assoc]
  · have kinds : Registration.kinds (entries ++ [entry]) =
        Registration.kinds entries ++ [shape.kinds] := by
      rw [Registration.kinds, List.map_append, List.map_singleton, same]
      rfl
    have whole := written.append (.plain plain)
    rwa [List.append_nil, List.append_nil, ← kinds] at whole

end Phrase

/-! ### Shapes and triple expressions -/

namespace Grammar

open Phrase (Accounts Closed Declares Defines Plain)

section Inner

variable {left : Nat} (deeper : ∀ body ∈ nested left, Accounts [] body TripleExpr.kinds)

include deeper

/-- The node kinds of a definition are those between its braces. -/
theorem shapeDefinition_defines : Defines (shapeDefinition (nested left)) := by
  intro context tokens journal shape later derives
  cases left with
  | zero => exact derives.elim
  | succ left =>
    obtain ⟨front, _, clauses, _, rfl, many, _, _, -, _, rfl, ⟨_, rfl, rfl, rfl⟩, content, _,
      expression, _, rfl, inside, _, _, -, _, rfl, ⟨_, rfl, rfl, rfl⟩, rfl, rfl, rfl⟩ := derives
    obtain ⟨log, plain⟩ := Plain.many .clause many
    obtain ⟨entries, kinds, log', written, rfl⟩ := Accounts.optional (deeper _ rfl) inside
    refine ⟨entries, log ▸ log', ?_⟩
    exact (NodeKind.Written.plain plain).append (.braces written .nil)

theorem shapeRef_closed : Closed (shapeRef (nested left)) := by
  have inPlace : Closed (do Phrase.inPlace (← shapeDefinition (nested left))) :=
    (shapeDefinition_defines deeper).declared .inPlace
  refine .bind (.separated (.word rfl) (.orElse Plain.reference.closed inPlace)) fun labels => ?_
  split
  · exact .done _
  · exact .done _

/-- A node kind with its reference and its facets. -/
theorem kind_accounts (begins : token.nodeKind? = some kind)
    (derives : (optional (shapeRef (nested left))).Derives context front journal target later)
    (bare : kind = .literal → target = none)
    (declared : Facets.Declared context kind entries held) :
    Journal.Accounts context (token :: (front ++ Facets.spell entries)) []
      [.kind kind held target] journal later := by
  obtain ⟨added, _, log, inside, rfl⟩ := Closed.optional (shapeRef_closed deeper) derives
  have written := NodeKind.Written.kind begins derives bare inside declared .nil
  rw [List.append_nil, List.append_nil] at written
  exact ⟨added, _, log, written, rfl⟩

/-- A node kind that may have a reference, and has no facets of numbers. -/
theorem resource_accounts (begins : (Token.keyword word).nodeKind? = some kind)
    (other : kind ≠ .literal) (admits : kind ≠ .blank) : Accounts [] (do
      Phrase.word word
      let reference ← optional (shapeRef (nested left))
      return .kind kind (← Grammar.facets false) reference) ValueClass.kinds := by
  rintro context tokens journal value later ⟨_, _, -, _, rfl, ⟨_, rfl, rfl, rfl⟩, front, _, target,
    middle, rfl, reference, _, _, held, last, rfl, derives, rfl, rfl, rfl⟩
  rw [← decide_eq_false other] at derives
  obtain ⟨rfl, entries, rfl, declared⟩ := Facets.Declared.of_derives admits derives
  rw [List.append_nil]
  exact kind_accounts deeper begins reference (fun literal => absurd literal other) declared

theorem valueClass_accounts : Accounts [] (valueClass (nested left)) ValueClass.kinds := by
  refine .orElse ?_ (.orElse (resource_accounts deeper rfl nofun nofun)
    (.orElse (resource_accounts deeper rfl nofun nofun) (.orElse ?_ (.orElse ?_ (.orElse ?_
      (.orElse ?_ ?_))))))
  · rintro context tokens journal value later ⟨_, _, -, _, rfl, ⟨_, rfl, rfl, rfl⟩, _, _, held,
      last, rfl, derives, rfl, rfl, rfl⟩
    have admits : NodeKind.literal ≠ .blank := nofun
    obtain ⟨rfl, entries, rfl, declared⟩ := Facets.Declared.of_derives admits derives
    rw [List.append_nil]
    exact kind_accounts deeper rfl (.inr ⟨rfl, rfl, rfl⟩) (fun _ => rfl) declared
  · rintro context tokens journal value later ⟨_, _, -, _, rfl, ⟨_, rfl, rfl, rfl⟩, front, _,
      target, middle, rfl, reference, rfl, rfl, rfl⟩
    have other : NodeKind.blank ≠ .literal := nofun
    exact kind_accounts deeper rfl reference (fun literal => absurd literal other) .nil
  · exact .skip .iri fun _ => .done rfl
  · exact .after (shapeRef_closed deeper) fun _ => .done rfl
  · exact .skip .valueSet fun _ => .done rfl
  · exact .skip (.sign rfl) fun _ => .done rfl

theorem tripleConstraint_accounts :
    Accounts [] (tripleConstraint (nested left)) fun body => body.value.kinds :=
  .skip .senseFlags fun _ => .skip .predicate fun _ => .bind (valueClass_accounts deeper)
    fun _ => .skip (.many .annotated) fun _ => .skip (.optional .cardinality) fun _ =>
      .skip .actions fun _ => .done rfl

theorem encapsulated_accounts : Accounts [] (encapsulated (nested left)) TripleExpr.kinds := by
  refine .within fun body held => .skip (.sign rfl) fun _ => .bind (deeper body held) fun expr =>
    .skip (.sign rfl) fun _ => .skip (.optional .cardinality) fun _ => .skip .actions fun _ => ?_
  rintro context tokens journal result later ⟨rfl, wrapped, rfl⟩
  rw [TripleExpr.kinds_wrapped wrapped]
  exact .refl _

theorem unary_accounts : Accounts [] (unary (nested left)) TripleExpr.kinds := by
  have unlabelled : Accounts [] (unlabelled (nested left)) TripleExpr.kinds := by
    refine .orElse ?_ (.orElse (.skip (.sign rfl) fun _ => .skip .label fun _ => .done rfl)
      (encapsulated_accounts deeper))
    exact .bind (tripleConstraint_accounts deeper) fun body =>
      .done (TripleExpr.kinds_constraint none body)
  refine .skip (.optional (.bind (.sign rfl) fun _ => .label)) fun id => .bind unlabelled
    fun expr => .done ?_
  cases id with
  | none => rfl
  | some label => exact expr.kinds_withId label

theorem oneOf_accounts : Accounts [] (oneOf (nested left)) TripleExpr.kinds := by
  have group : Accounts [] (group (nested left)) TripleExpr.kinds :=
    .bind (.separated (.sign rfl) (unary_accounts deeper)) fun members => .skip (.mark rfl) fun _ =>
      .done (TripleExpr.kinds_combined (fun _ => TripleExpr.constraints_eq _) members)
  have someOf : Accounts [] (someOf (nested left)) TripleExpr.kinds :=
    .bind (.separated (.sign rfl) group) fun branches =>
      .done (TripleExpr.kinds_combined (fun _ => TripleExpr.constraints_eq _) branches)
  exact .bind (.separated (.sign rfl) someOf) fun branches =>
    .done (TripleExpr.kinds_combined (fun _ => TripleExpr.constraints_eq _) branches)

end Inner

theorem nested_accounts (left : Nat) :
    ∀ body ∈ nested left, Accounts [] body TripleExpr.kinds := by
  induction left with
  | zero => exact nofun
  | succ left ih =>
    intro body member
    cases member
    exact oneOf_accounts ih

/-! ### Documents -/

theorem notStartAction_closed : Closed notStartAction := by
  have definition : Defines (shapeDefinition outermost) :=
    shapeDefinition_defines (nested_accounts nestingLimit)
  have startLabel : Closed startLabel := by
    refine .orElse Plain.label.closed (.orElse Plain.reference.closed ?_)
    exact definition.declared fun shape => .skip .actions fun code =>
      .inPlace { shape with actions := code }
  refine .orElse ?_ ?_
  · exact .skip (.word rfl) fun _ => .skip (.sign rfl) fun _ => .bind startLabel fun _ =>
      Plain.closed .declare
  · have isVirtual : Plain (Phrase.markWord .virtual) :=
      .orElse (.bind (.word rfl) fun _ => .done true) (.done false)
    exact .skip isVirtual fun isVirtual => .skip .label fun label =>
      definition.declared fun shape => .skip .actions fun code =>
        .stated label { shape with isVirtual := isVirtual, actions := code }

theorem document_closed : Closed document := by
  refine .skip (.many .directive) fun _ => .orElse ?_ (.done rfl)
  exact .after (.orElse notStartAction_closed Plain.startActions.closed) fun _ =>
    .after (.many (.orElse Plain.directive.closed notStartAction_closed)) fun _ => .done rfl

end Grammar

end ShExCompact
