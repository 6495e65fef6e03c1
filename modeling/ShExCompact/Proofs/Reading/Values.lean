import ShExCompact.Proofs.Reading.Terms

/-! Value sets and facets are read as the grammar has them. -/
namespace ShExCompact.Reading

open ShExCompact.Parser (eat eatToken advance peek collect)
open Phrase (sign mark terminal many)

variable {follow : Option Token → Prop}

/-! ### Value sets -/

theorem exclusion_sound : Sound Parser.exclusion? (optional Grammar.exclusion) := by
  simp only [optional, Grammar.exclusion, map_bind, map_pure]
  refine .ifEaten _ (iri_sound.bind fun _ => (Sound.eaten _).bind fun isStem => ?_) (.done none)
  cases isStem <;> exact .done _

theorem exclusion_complete :
    Complete Parser.exclusion? (some <$> Grammar.exclusion) (· ≠ some (.punct .tilde)) := by
  simp only [Grammar.exclusion, map_bind, map_pure]
  refine .ifEaten (iri_complete.then fun _ => (Complete.eaten _).bind
    (fun _ => .done fun _ other => other) fun isStem => ?_)
  cases isStem <;> exact .done _

theorem exclusion_opens : Opens Grammar.exclusion (· = .punct .minus) :=
  .then (.exactly _)

/-- No token that would go on with a range. -/
def EndsRange (next : Option Token) : Prop :=
  next ≠ some (.punct .tilde) ∧ next ≠ some (.punct .minus)

theorem exclusions_sound : Sound (collect Parser.exclusion?) (many Grammar.exclusion) :=
  exclusion_sound.collectMany exclusion_opens

theorem exclusions_complete :
    Complete (collect Parser.exclusion?) (many Grammar.exclusion) EndsRange := by
  have ending : Complete Parser.exclusion? (return none) EndsRange :=
    .unlessEaten (.done fun _ ends => ends.2) (.done none)
  have again : Leads Grammar.exclusion (· ≠ some (.punct .tilde)) (· ≠ some (.punct .tilde)) :=
    exclusion_opens.leads_ne nofun
  exact .collectMany exclusion_complete ending again (fun _ ends => ends.1) exclusion_opens

theorem exclusions_lead : Leads (many Grammar.exclusion) EndsRange (· ≠ some (.punct .tilde)) :=
  .many (exclusion_opens.leads_ne nofun) fun _ ends => ends.1

theorem iriRange_sound : Sound Parser.iriRange Grammar.iriRange := by
  refine .swap (.ifEaten _ ?_ ?_)
  · exact (Sound.eaten _).bind fun _ => exclusions_sound.bind fun _ => .done _
  · exact iri_sound.bind fun _ => .ifEaten _ (exclusions_sound.bind fun _ => .done _) (.done _)

theorem iriRange_complete : Complete Parser.iriRange Grammar.iriRange EndsRange := by
  refine .orElse (.unlessEaten ?_ ?_) ?_
  · exact .then (iri_opens.leads_ne nofun)
  · refine iri_complete.then fun stem => .orElse ?_ ?_
    · exact .ifEaten (exclusions_complete.result _)
    · exact .unlessEaten (.done fun _ ends => ends.1) (.done _)
  · refine .ifEaten ((Complete.eaten _).bind (fun _ => ?_) fun _ => exclusions_complete.result _)
    exact exclusions_lead.map

/-- A token that begins a range, or is an IRI. -/
def beginsRange (token : Token) : Bool := token.isIri || token = .punct .dot

theorem iriRange_opens : Opens Grammar.iriRange (beginsRange · = true) := by
  refine .orElse (.then (iri_opens.imp fun token begins => ?_))
    (.then ((Opens.exactly _).imp fun token same => ?_))
  · simp [beginsRange, begins]
  · simp [beginsRange, same]

theorem isLiteral_eq_false (begins : beginsRange token) : token.isLiteral = false := by
  unfold Token.isLiteral
  split <;> first | rfl | cases begins

theorem value_sound : Sound Parser.valueSetItem?
    (some <$> Grammar.value <|> (fun _ => none) <$> sign .closeParen) := by
  refine .swap (.ifEaten _ (.done none) (.ifNext ?_ (.ifNext ?_ (.refused _) _) _))
  all_goals
    simp only [Grammar.value, Phrase.map_orElse, map_bind, map_pure]
  · exact .right (literal_sound.bind fun _ => .done _)
  · exact .left (iriRange_sound.bind fun _ => .done _)

theorem value_opens :
    Opens Grammar.value fun token => beginsRange token = true ∨ token.isLiteral = true :=
  .orElse (iriRange_opens.imp fun _ => .inl) (.then (literal_opens.imp fun _ => .inr))

/-- No token that would go on with an item of a value set. -/
def EndsItem (next : Option Token) : Prop := EndsString next ∧ EndsRange next

theorem value_leads : Leads Grammar.value follow EndsItem := by
  intro context tokens journal value later next derives follows
  have other : ∀ token, beginsRange token = false → token.isLiteral = false →
      tokens.head?.or next ≠ some token := by
    intro token noRange noLiteral
    exact value_opens.leads_ne (by simp [noRange, noLiteral]) derives follows
  exact ⟨⟨other _ rfl rfl, fun tag => other _ rfl rfl⟩, other _ rfl rfl, other _ rfl rfl⟩

theorem value_complete : Complete Parser.valueSetItem? (some <$> Grammar.value) EndsItem := by
  simp only [Grammar.value, Phrase.map_orElse, map_bind, map_pure]
  refine .orElse (.unlessEaten ?_ (.ifNext false ?_ (.ifNext true ?_ ?_)))
    (.unlessEaten ?_ (.ifNext true ?_ ?_))
  · exact .map (iriRange_opens.leads_ne nofun)
  · exact .map (iriRange_opens.leads_any fun _ => isLiteral_eq_false)
  · exact .map (iriRange_opens.leads_any fun _ begins => begins)
  · exact (iriRange_complete.mono fun _ ends => ends.2).result some
  · exact .then (literal_opens.leads_ne nofun)
  · exact .then (literal_opens.leads_any fun _ begins => begins)
  · exact (literal_complete.mono fun _ ends => ends.1).result _

theorem valueSet_sound : Sound Parser.valueSet Grammar.valueSet :=
  (Sound.expectSign _).bind fun _ => value_sound.collectUntil value_opens

theorem valueSet_complete : Complete Parser.valueSet Grammar.valueSet follow := by
  refine .then (.expectSign _) fun _ => ?_
  have ending : Complete Parser.valueSetItem? ((fun _ => none) <$> sign .closeParen) follow :=
    .ifEaten (.done none)
  have closes : Leads (sign .closeParen) follow EndsItem :=
    .exactly ⟨⟨nofun, nofun⟩, nofun, nofun⟩
  exact .collectUntil value_complete ending value_leads closes value_opens

theorem valueSet_opens : Opens Grammar.valueSet (· = .punct .openParen) := .then (.exactly _)

/-! ### Facets -/

theorem facetValue_sound (argument : Parser.FacetArgument) :
    Sound (Parser.facetValue argument) (Grammar.facetValue argument) := by
  cases argument with
  | string facet => exact string_reads.sound.map facet
  | unsigned facet => exact (integer_reads _).sound.map facet
  | signed facet => exact (integer_reads _).sound.map facet

theorem facetValue_complete (argument : Parser.FacetArgument) :
    Complete (Parser.facetValue argument) (Grammar.facetValue argument) follow := by
  cases argument with
  | string facet => exact string_reads.complete.map facet
  | unsigned facet => exact (integer_reads _).complete.map facet
  | signed facet => exact (integer_reads _).complete.map facet

/-- A keyword of a facet. -/
def isFacet (numeric : Bool) : Token → Bool
  | .keyword keyword => (Parser.facetArgument? numeric keyword).isSome
  | _ => false

theorem facet_sound (numeric : Bool) :
    Sound (Parser.facet? numeric) (optional (Grammar.facet numeric)) := by
  simp only [optional, Grammar.facet, map_bind]
  refine .peeked fun next => ?_
  split
  next keyword =>
    split
    next argument known =>
      refine .left (.means (fun _ _ => .known known) ?_)
      exact (facetValue_sound argument).bind fun _ => .done _
    next => exact Sound.right (.done none) _
  next => exact Sound.right (.done none) _

theorem facet_complete (numeric : Bool) :
    Complete (Parser.facet? numeric) (some <$> Grammar.facet numeric) follow := by
  simp only [Grammar.facet, map_bind]
  refine .means fun context draft token argument means => ?_
  cases means with
  | known known =>
    dsimp only
    rw [known]
    exact ⟨_, rfl, (facetValue_complete argument).result some⟩

theorem facet_opens (numeric : Bool) :
    Opens (Grammar.facet numeric) (isFacet numeric · = true) := by
  refine .then (.terminal fun context draft token argument means => ?_)
  cases means with
  | known known => exact Option.isSome_iff_exists.mpr ⟨_, known⟩

theorem facets_sound (numeric : Bool) :
    Sound (Facets.ofList <$> collect (Parser.facet? numeric)) (Grammar.facets numeric) :=
  ((facet_sound numeric).collectMany (facet_opens numeric)).map _

theorem facets_complete (numeric : Bool) :
    Complete (Facets.ofList <$> collect (Parser.facet? numeric)) (Grammar.facets numeric)
      fun next => next.any (isFacet numeric) = false := by
  have ending : Complete (Parser.facet? numeric) (return none)
      fun next => next.any (isFacet numeric) = false := by
    refine .peeked (.done fun _ ends => ends) fun next ends => ?_
    split
    next keyword =>
      split
      next argument known => simp [isFacet, known] at ends
      next => exact .done none
    next => exact .done none
  exact (Complete.collectMany (facet_complete numeric) ending .any (fun _ _ => trivial)
    (facet_opens numeric)).map _

end ShExCompact.Reading
