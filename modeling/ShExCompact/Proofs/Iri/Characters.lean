import ShExCompact.Iri.Absolute
import ShExCompact.Proofs.Lexical.Lexemes

/-! The characters of accepted IRIs. Main statement: none of those that a reference between angle
brackets excludes is among them. -/
namespace ShExCompact

/-- Characters that an accepted IRI may have. -/
def Iri.isAdmitted (c : Char) : Bool :=
  isPlain c || isPrivate c || "%:/?#[]@".toList.contains c

/-- A text of such characters. -/
def Iri.Admitted (text : List Char) : Prop := ∀ c ∈ text, isAdmitted c

open Iri (isAdmitted Admitted)

namespace Iri

theorem Admitted.append (front : Admitted text) (later : Admitted rest) :
    Admitted (text ++ rest) := List.forall_mem_append.mpr ⟨front, later⟩

theorem Admitted.cons (first : isAdmitted c) (later : Admitted rest) : Admitted (c :: rest) :=
  List.forall_mem_cons.mpr ⟨first, later⟩

theorem isAdmitted_of_isPlain (plain : isPlain c) : isAdmitted c := by
  simp [isAdmitted, plain]

theorem isAdmitted_of_isAlphanum (alphanum : Char.isAlphanum c) : isAdmitted c :=
  isAdmitted_of_isPlain (by simp [isPlain, alphanum])

theorem isAdmitted_of_isDigit (digit : Char.isDigit c) : isAdmitted c :=
  isAdmitted_of_isAlphanum (by simp [Char.isAlphanum, digit])

theorem isAdmitted_of_isHex (hex : Numeral.isHex c) : isAdmitted c :=
  forall_ascii (p := fun c => Numeral.isHex c → isAdmitted c) (by decide +kernel)
    (toNat_lt_of_isHex hex) hex

end Iri

/-! ### Addresses -/

namespace Host

theorem mem_pieces (mark : Char) (member : c ∈ text) :
    c = mark ∨ ∃ piece ∈ pieces mark text, c ∈ piece := by
  induction text with
  | nil => cases member
  | cons d rest ih =>
    simp only [pieces]
    by_cases same : d = mark
    · rw [if_pos same]
      rcases List.mem_cons.mp member with rfl | member
      · exact .inl same
      · rcases ih member with ends | ⟨piece, held, inside⟩
        · exact .inl ends
        · exact .inr ⟨piece, List.mem_cons_of_mem _ held, inside⟩
    · rw [if_neg same]
      cases split : pieces mark rest with
      | nil =>
        rcases List.mem_cons.mp member with rfl | member
        · exact .inr ⟨[c], List.mem_singleton_self _, List.mem_singleton_self _⟩
        · rcases ih member with ends | ⟨piece, held, -⟩
          · exact .inl ends
          · simp [split] at held
      | cons first more =>
        rcases List.mem_cons.mp member with rfl | member
        · exact .inr ⟨c :: first, List.mem_cons_self, List.mem_cons_self⟩
        · rcases ih member with ends | ⟨piece, held, inside⟩
          · exact .inl ends
          · rw [split] at held
            rcases List.mem_cons.mp held with rfl | held
            · exact .inr ⟨d :: piece, List.mem_cons_self, List.mem_cons_of_mem _ inside⟩
            · exact .inr ⟨piece, List.mem_cons_of_mem _ held, inside⟩

theorem admitted_of_isOctet (octet : isOctet text) : Admitted text := by
  simp only [isOctet, Bool.and_eq_true] at octet
  exact fun c member => Iri.isAdmitted_of_isDigit (List.all_eq_true.mp octet.1.1.2 c member)

theorem admitted_of_isGroup (group : isGroup text) : Admitted text := by
  simp only [isGroup, Bool.and_eq_true] at group
  exact fun c member => Iri.isAdmitted_of_isHex (List.all_eq_true.mp group.2 c member)

/-- A text is admitted if its pieces are. -/
theorem admitted_of_pieces (marked : isAdmitted mark)
    (each : ∀ piece ∈ pieces mark text, Admitted piece) : Admitted text := by
  intro c member
  rcases mem_pieces mark member with rfl | ⟨piece, held, inside⟩
  · exact marked
  · exact each piece held c inside

theorem admitted_of_isIpv4 (address : isIpv4 text) : Admitted text := by
  simp only [isIpv4, Bool.and_eq_true] at address
  have dot : isAdmitted '.' := by decide
  apply admitted_of_pieces dot
  intro piece member
  exact admitted_of_isOctet (List.all_eq_true.mp address.2 piece member)

theorem admitted_of_groupCount (counted : groupCount? groups = some n) :
    ∀ piece ∈ groups, Admitted piece := by
  induction groups generalizing n with
  | nil => exact nofun
  | cons piece rest ih =>
    cases rest with
    | nil =>
      simp only [groupCount?] at counted
      intro only member
      obtain rfl := List.mem_singleton.mp member
      split at counted
      next group => exact admitted_of_isGroup group
      next =>
        split at counted
        next address => exact admitted_of_isIpv4 address
        next => cases counted
    | cons next rest =>
      simp only [groupCount?] at counted
      split at counted
      case isTrue group =>
        obtain ⟨count, counted, -⟩ := Option.map_eq_some_iff.mp counted
        exact List.forall_mem_cons.mpr ⟨admitted_of_isGroup group, ih counted⟩
      case isFalse => cases counted

theorem splitGap_eq_some (split : splitGap? text = some (before, after)) :
    text = before ++ ':' :: ':' :: after := by
  induction text generalizing before with
  | nil => cases split
  | cons c rest ih =>
    rw [splitGap?.eq_def] at split
    split at split
    next same =>
      cases same
      cases split
      rfl
    next same =>
      cases same
      obtain ⟨⟨front, back⟩, later, same⟩ := Option.map_eq_some_iff.mp split
      cases same
      rw [ih later]
      rfl
    next same => cases same

theorem admitted_of_sideCount (counted : sideCount? text = some n) : Admitted text := by
  unfold sideCount? at counted
  split at counted
  case isTrue empty =>
    obtain rfl := List.isEmpty_iff.mp empty
    exact nofun
  case isFalse => exact admitted_of_pieces (by decide) (admitted_of_groupCount counted)

theorem admitted_of_isIpv6 (address : isIpv6 text) : Admitted text := by
  unfold isIpv6 at address
  split at address
  next =>
    exact admitted_of_pieces (by decide) (admitted_of_groupCount (beq_iff_eq.mp address))
  next before after split =>
    obtain rfl := splitGap_eq_some split
    simp only [Bool.and_eq_true] at address
    obtain ⟨-, counted⟩ := address
    split at counted
    next first second known known' =>
      exact .append (admitted_of_sideCount known)
        (.cons (by decide) (.cons (by decide) (admitted_of_sideCount known')))
    next => cases counted

end Host

/-! ### Parts of an IRI -/

namespace Iri

/-- What is read is admitted, and the rest is empty or begins with a character that ends it. -/
theorem read_ok (outcome : read extra stop text = .ok rest)
    (extras : ∀ c, extra c → isAdmitted c) :
    ∃ front, text = front ++ rest ∧ Admitted front ∧ ∀ c ∈ rest.head?, stop c := by
  fun_induction read extra stop text with
  | case1 =>
    cases outcome
    exact ⟨[], rfl, nofun, nofun⟩
  | case2 c text ends =>
    cases outcome
    exact ⟨[], rfl, nofun, fun d member => by cases member; exact ends⟩
  | case3 c text goesOn plain ih =>
    obtain ⟨front, rfl, admitted, ends⟩ := ih outcome
    refine ⟨c :: front, rfl, .cons ?_ admitted, ends⟩
    rcases Bool.or_eq_true_iff.mp plain with plain | more
    · exact isAdmitted_of_isPlain plain
    · exact extras c more
  | case4 a b more hex goesOn noPlain ih =>
    obtain ⟨front, rfl, admitted, ends⟩ := ih outcome
    rw [Bool.and_eq_true] at hex
    refine ⟨'%' :: a :: b :: front, rfl, .cons (by decide) ?_, ends⟩
    exact .cons (isAdmitted_of_isHex hex.1) (.cons (isAdmitted_of_isHex hex.2) admitted)
  | case5 => cases outcome
  | case6 => cases outcome
  | case7 => cases outcome

theorem bind_ok {first : Check α} {next : α → Check β} (outcome : (first >>= next) = .ok result) :
    ∃ inner, first = .ok inner ∧ next inner = .ok result := by
  cases first with
  | error fault => cases outcome
  | ok inner => exact ⟨inner, rfl, outcome⟩

theorem fragment_ok (outcome : fragment text = .ok ()) : Admitted text := by
  obtain ⟨rest, read, -⟩ := bind_ok outcome
  obtain ⟨front, rfl, admitted, ends⟩ := read_ok read fun c extra => by
    simp only [Bool.or_eq_true, decide_eq_true_eq] at extra
    rcases extra with ((rfl | rfl) | rfl) | rfl <;> decide
  cases rest with
  | nil => rwa [List.append_nil]
  | cons c rest => exact absurd (ends c rfl) (by decide)

theorem query_ok (outcome : query text = .ok ()) : Admitted text := by
  obtain ⟨rest, read, later⟩ := bind_ok outcome
  obtain ⟨front, rfl, admitted, ends⟩ := read_ok read fun c extra => by
    simp only [Bool.or_eq_true, decide_eq_true_eq] at extra
    rcases extra with (((rfl | rfl) | rfl) | rfl) | isPrivate
    case inr => simp [isAdmitted, isPrivate]
    all_goals decide
  cases rest with
  | nil => rwa [List.append_nil]
  | cons c rest =>
    have last := of_decide_eq_true (ends c rfl)
    subst last
    exact admitted.append (.cons (by decide) (fragment_ok later))

theorem path_ok (outcome : path text = .ok ()) : Admitted text := by
  obtain ⟨rest, read, later⟩ := bind_ok outcome
  obtain ⟨front, rfl, admitted, ends⟩ := read_ok read fun c extra => by
    simp only [Bool.or_eq_true, decide_eq_true_eq] at extra
    rcases extra with (rfl | rfl) | rfl <;> decide
  cases rest with
  | nil => rwa [List.append_nil]
  | cons c rest =>
    have last := ends c rfl
    simp only [Bool.or_eq_true, decide_eq_true_eq] at last
    rcases last with rfl | rfl
    · exact admitted.append (.cons (by decide) (query_ok later))
    · exact admitted.append (.cons (by decide) (fragment_ok later))

theorem Admitted.takeWhile {property : Char → Bool}
    (inside : ∀ c, property c → isAdmitted c) (text : List Char) :
    Admitted (text.takeWhile property) := by
  induction text with
  | nil => exact nofun
  | cons c rest ih =>
    by_cases holds : property c
    · rw [List.takeWhile_cons_of_pos holds]
      exact .cons (inside c holds) ih
    · rw [List.takeWhile_cons_of_neg holds]
      exact nofun

theorem portNumber_ok (outcome : portNumber text = .ok ()) : Admitted text := by
  rw [← List.takeWhile_append_dropWhile (p := Char.isDigit) (l := text)]
  apply Admitted.append (.takeWhile (fun c => isAdmitted_of_isDigit) text)
  unfold portNumber at outcome
  dsimp only at outcome
  generalize text.dropWhile Char.isDigit = rest at outcome ⊢
  cases rest with
  | nil => exact nofun
  | cons c rest =>
    dsimp only at outcome
    split at outcome
    next => exact path_ok outcome
    next => cases outcome

theorem afterHost_ok (outcome : afterHost text = .ok ()) : Admitted text := by
  cases text with
  | nil => exact nofun
  | cons c rest =>
    rw [afterHost] at outcome
    split at outcome
    next same =>
      subst same
      exact .cons (by decide) (portNumber_ok outcome)
    next =>
      split at outcome
      next => exact path_ok outcome
      next => cases outcome

theorem laterAddress_ok (outcome : laterAddress text = .ok ()) : Admitted text := by
  rw [← List.takeWhile_append_dropWhile (p := Numeral.isHex) (l := text)]
  apply Admitted.append (.takeWhile (fun c => isAdmitted_of_isHex) text)
  unfold laterAddress at outcome
  dsimp only at outcome
  generalize text.dropWhile Numeral.isHex = rest at outcome ⊢
  cases rest with
  | nil => exact nofun
  | cons c rest =>
    dsimp only at outcome
    split at outcome
    next => cases outcome
    next dot =>
      obtain rfl : c = '.' := Decidable.of_not_not dot
      split at outcome
      next => cases outcome
      next =>
        split at outcome
        next => cases outcome
        next none =>
          refine .cons (by decide) fun c member => ?_
          by_cases plain : isPlain c
          · exact isAdmitted_of_isPlain plain
          · have admitted := List.find?_eq_none.mp none c member
            have colon : c.toNat < 128 ∧ c = ':' := by simpa [plain] using admitted
            obtain ⟨-, rfl⟩ := colon
            decide

theorem address_ok (outcome : address text = .ok ()) : Admitted text := by
  cases text with
  | nil => cases outcome
  | cons c rest =>
    rw [address] at outcome
    split at outcome
    next version =>
      refine .cons ?_ (laterAddress_ok outcome)
      simp only [Bool.or_eq_true, decide_eq_true_eq] at version
      rcases version with rfl | rfl <;> decide
    next =>
      split at outcome
      next address => exact Host.admitted_of_isIpv6 address
      next => cases outcome

theorem host_ok (outcome : host text = .ok ()) : Admitted text := by
  unfold host at outcome
  split at outcome
  next inside =>
    refine .cons (by decide) ?_
    rw [← List.takeWhile_append_dropWhile (p := (· ≠ ']')) (l := inside)]
    split at outcome
    next => cases outcome
    next c tail closes =>
      obtain ⟨_, first, outcome⟩ := bind_ok outcome
      rw [closes]
      have last := List.head?_dropWhile_not (· ≠ ']') inside
      rw [closes] at last
      obtain rfl : c = ']' := by simpa using last
      exact (address_ok first).append (.cons (by decide) (afterHost_ok outcome))
  next =>
    obtain ⟨rest, read, later⟩ := bind_ok outcome
    obtain ⟨front, rfl, admitted, -⟩ := read_ok read fun c extra => by cases extra
    exact admitted.append (afterHost_ok later)

theorem authority_ok (outcome : authority text = .ok ()) : Admitted text := by
  obtain ⟨rest, read, later⟩ := bind_ok outcome
  split at later
  next tail =>
    obtain ⟨front, rfl, admitted, -⟩ := read_ok read fun c extra => by
      obtain rfl := of_decide_eq_true extra
      decide
    exact admitted.append (.cons (by decide) (host_ok later))
  next => exact host_ok later

theorem hierarchy_ok (outcome : hierarchy text = .ok ()) : Admitted text := by
  unfold hierarchy at outcome
  split at outcome
  next => exact .cons (by decide) (.cons (by decide) (authority_ok outcome))
  next => exact path_ok outcome

/-- An accepted IRI consists of admitted characters. -/
theorem check_ok (outcome : check text = .ok ()) : Admitted text := by
  unfold check at outcome
  split at outcome
  next => cases outcome
  next =>
    split at outcome
    next rest scheme =>
      unfold schemeRest? at scheme
      split at scheme
      next =>
        split at scheme
        next tail splits =>
          cases scheme
          rw [← List.takeWhile_append_dropWhile (p := isSchemeCharacter) (l := text), splits]
          refine .append (.takeWhile (fun c inside => ?_) text)
            (.cons (by decide) (hierarchy_ok outcome))
          simp only [isSchemeCharacter, Bool.or_eq_true, decide_eq_true_eq] at inside
          rcases inside with ((alphanum | rfl) | rfl) | rfl
          case inl.inl.inl => exact isAdmitted_of_isAlphanum alphanum
          all_goals decide
        next => cases scheme
      next => cases scheme
    next =>
      obtain ⟨_, -, impossible⟩ := bind_ok outcome
      cases impossible

/-- An accepted IRI contains no backslash. -/
theorem backslash_not_mem (outcome : check text = .ok ()) : '\\' ∉ text := fun member =>
  absurd (check_ok outcome _ member) (by decide)

/-- An accepted IRI contains no double quote. -/
theorem quote_not_mem (outcome : check text = .ok ()) : '"' ∉ text := fun member =>
  absurd (check_ok outcome _ member) (by decide)

end Iri

end ShExCompact
