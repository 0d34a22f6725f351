import CardCode.App.Agreement
import CardCode.Syntax.Positions

/-! # One row of lexemes, two parsers

Where the engine accepts a text, both parsers find the same lexemes at the same
places and bracket them alike. Each leaf and each bracket of the trees below is a
token of the engine together with its place in the text of the user interface.
-/

namespace CardCode.App

open TokenTree

abbrev Sighting := Token × Place

/-- The lexeme the user interface finds there. -/
def Sighting.lexeme (sighting : Sighting) : Lexeme :=
  sighting.2.lexeme appAlphabet 0

/-- The engine's token is the word at its place, with the span of its bytes. -/
structure Sighting.Sound (text : Text) (sighting : Sighting) : Prop where
  classified : sighting.1.Classified
  kind : sighting.1.kind.lexeme = sighting.2.kind
  word : sighting.1.text.toList = sighting.2.word
  span : sighting.1.span =
    (positionAfter (engineText sighting.2.before)).spanTo
      (positionAfter (engineText (sighting.2.before ++ sighting.2.word)))
  inside : sighting.2.before ++ sighting.2.word <+: text
  solid : sighting.2.word ≠ [] ∧ '\n' ∉ sighting.2.word

/-- What both parsers read in a text the engine accepts. -/
structure SharedReading (text : Text) (exprs : List RawExpr) where
  lexed : LexResult
  trees : List (TokenTree Sighting)
  last : Token
  lexes : lex (utf8 text) = some lexed
  tokens_eq : lexed.tokens = flattenAll (trees.map (map Prod.fst)) ++ [last]
  bracketed : ∀ tree ∈ trees, WellBracketed (tree.map Prod.fst)
  sound : ∀ sighting ∈ flattenAll trees, sighting.Sound text
  ordered : (flattenAll trees).Pairwise fun first second => first.2.Precedes second.2
  exprs_eq : exprs = trees.map fun tree => toRaw (tree.map Prod.fst)
  parses : parseCardCode text = .ok
    { children := trees.map fun tree => treeExpr text (tree.map Sighting.lexeme)
      span := spanFromOffsets text 0 (textLength text) }
  fits : (utf8 text).length < 2 ^ 32

theorem engineText_length (text : Text) : (engineText text).length = (utf8 text).length := by
  rw [engineText, List.length_map]

theorem engineText_isPrefix {front text : Text} (isPrefix : front <+: text) :
    engineText front <+: engineText text := by
  rcases isPrefix with ⟨rest, rfl⟩
  rw [engineText_append]
  exact List.prefix_append _ _

theorem eq_of_prefixes {first second text : List Char} (firstPrefix : first <+: text)
    (secondPrefix : second <+: text) (same : first.length = second.length) : first = second :=
  List.IsPrefix.eq_of_length
    (List.prefix_of_prefix_length_le firstPrefix secondPrefix (Nat.le_of_eq same)) same

/-- A token that is the lexeme at a place has the span of that place's bytes. -/
theorem span_of_place {text : Text} {token : Token} {place : Place}
    (fits : (utf8 text).length < 2 ^ 32) (stands : token.Stands (engineText text))
    (inside : place.before ++ place.word <+: text)
    (same : token.lexeme = place.lexeme byteAlphabet 0) :
    token.span = (positionAfter (engineText place.before)).spanTo
      (positionAfter (engineText (place.before ++ place.word))) := by
  rcases stands with ⟨before, word, whole, span⟩
  have counted {front : List Char} (isPrefix : front <+: engineText text) :
      (positionAfter front).offset.toNat = front.length := by
    have short := isPrefix.length_le
    rw [engineText_length] at short
    rw [positionAfter_eq]
    exact UInt32.toNat_ofNat_of_lt' (Nat.lt_of_le_of_lt short fits)
  have beforeInside : place.before <+: text := (List.prefix_append _ _).trans inside
  have start : before.length = (engineText place.before).length := by
    have offset : token.span.startOffset.toNat = 0 + byteAlphabet.extent place.before :=
      congrArg Lexeme.start same
    rw [span, byteAlphabet_extent, Nat.zero_add] at offset
    refine Eq.trans ?_ offset
    exact (counted ((List.prefix_append _ _).trans whole)).symm
  have stop : (before ++ word).length = (engineText (place.before ++ place.word)).length := by
    have offset : token.span.endOffset.toNat =
        0 + byteAlphabet.extent (place.before ++ place.word) := congrArg Lexeme.stop same
    rw [span, byteAlphabet_extent, Nat.zero_add] at offset
    refine Eq.trans ?_ offset
    exact (counted whole).symm
  rw [span, spanAround, eq_of_prefixes whole (engineText_isPrefix inside) stop,
    eq_of_prefixes ((List.prefix_append _ _).trans whole) (engineText_isPrefix beforeInside) start]

/-- Both parsers read the same trees in a text the engine accepts. -/
theorem shared_reading {text : Text} {parsed : ParseResult}
    (found : parse (utf8 text) = some parsed) (clean : hasErrors parsed.diagnostics = false) :
    Nonempty (SharedReading text parsed.exprs) := by
  rcases parse_tokens found clean with ⟨reading, lexed, last, lexes, tokens⟩
  have scans := scans_text reading.scans text rfl
  have letters : ∀ c, byteAlphabet.isWord c = true → appAlphabet.isWord c = true := by
    intro c letter
    simp [appAlphabet, endsAtom_of_symbolChar letter]
  rcases @Scans.placed byteAlphabet appAlphabet _ _ _ (fun _ => isSpace_of_blank) letters scans with
    ⟨places, placed⟩
  have count : (flattenAll reading.trees).length = places.length := by
    have lengths := congrArg List.length placed.lexemes_eq
    rwa [List.length_map, List.length_map] at lengths
  have firsts : ((flattenAll reading.trees).zip places).map Prod.fst = flattenAll reading.trees :=
    List.map_fst_zip (Nat.le_of_eq count)
  have seconds : ((flattenAll reading.trees).zip places).map Prod.snd = places :=
    List.map_snd_zip (Nat.le_of_eq count.symm)
  generalize (flattenAll reading.trees).zip places = sightings at firsts seconds
  have across : ∀ sighting ∈ sightings,
      sighting.1.lexeme = sighting.2.lexeme byteAlphabet 0 := by
    have same := placed.lexemes_eq
    rw [← firsts, ← seconds, List.map_map, List.map_map] at same
    exact fun sighting member => List.map_inj_left.mp same sighting member
  have row : sightings.map Prod.fst = (flattenAll reading.trees).map id := by
    rw [firsts, List.map_id]
  rcases exists_relabelAll (fun tree _ => exists_relabel id Prod.fst tree) sightings row with
    ⟨trees, flat, relabelled⟩
  have engineTrees : trees.map (map Prod.fst) = reading.trees :=
    relabelled.trans ((List.map_congr_left fun tree _ => map_id tree).trans (List.map_id _))
  have bracketed : ∀ tree ∈ trees, WellBracketed (tree.map Prod.fst) := by
    intro tree member
    apply reading.bracketed
    rw [← engineTrees]
    exact List.mem_map_of_mem member
  have sound : ∀ sighting ∈ sightings, Sighting.Sound text sighting := by
    intro sighting member
    have same := across sighting member
    have token : sighting.1 ∈ flattenAll reading.trees := by
      rw [← firsts]
      exact List.mem_map_of_mem member
    have place : sighting.2 ∈ places := by
      rw [← seconds]
      exact List.mem_map_of_mem member
    have inside := placed.apart.inside _ place
    have stands := lex_stands lexes sighting.1 (tokens ▸ List.mem_append_left _ token)
    exact ⟨reading.classified _ token, congrArg Lexeme.kind same, congrArg Lexeme.text same,
      span_of_place reading.fits stands inside same, inside, placed.apart.solid _ place⟩
  have lexemes : sightings.map Sighting.lexeme = places.map (Place.lexeme appAlphabet 0) := by
    rw [← seconds, List.map_map]
    rfl
  have appScans := placed.scans 0
  rw [← lexemes, ← flat, ← flattenAll_map] at appScans
  have lexemesBracketed : ∀ tree ∈ trees.map (map Sighting.lexeme), LexemesBracketed tree := by
    intro lexemeTree member
    rcases List.mem_map.mp member with ⟨tree, present, rfl⟩
    apply lexemes_bracketed (bracketed tree present)
    rw [map_map, map_map]
    apply TokenTree.map_congr
    intro sighting inside
    have found : sighting ∈ sightings := flat ▸ mem_flattenAll.mpr ⟨tree, present, inside⟩
    have facts := sound sighting found
    exact Prod.ext facts.kind.symm facts.word.symm
  rw [← engineTrees] at tokens
  refine ⟨⟨lexed, trees, last, lexes, tokens, bracketed, by rwa [flat], ?_, ?_, ?_, reading.fits⟩⟩
  · have ordered := placed.apart.ordered
    rw [← seconds] at ordered
    rw [flat]
    exact List.pairwise_map.mp ordered
  · rw [reading.exprs_eq, ← engineTrees, List.map_map]
    rfl
  · rw [parseCardCode_reads lexemesBracketed appScans, List.map_map]
    rfl

end CardCode.App
