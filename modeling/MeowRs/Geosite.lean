import MeowRs.DomainTrie
import MeowRs.Metadata

/-!
# Geosite categories

A category of the geosite database has up to three buckets: a trie of domains, keywords and regular
expressions.  A rule may restrict a category by attributes, which stand for categories of their own.
The rule looks a category up for every connection; the rule compiler resolves it to bucket keys once.
-/

namespace MeowRs

open List Option Text

instance : DomainTrie.ValueLayout Unit where
  zeroSized := true
  subsingleton := fun _ => inferInstance

structure GeositeDb (Regex : Type) where
  categories : AList fun _ : Text => DomainTrie Unit
  regexCompiled : AList fun _ : Text => List Regex
  keywords : AList fun _ : Text => List Text

namespace GeositeDb

def attributeMark : UInt8 := 0x40

def splitCategoryAttrs (category : Text) : Text × List Text :=
  match (trim category).splitOn attributeMark with
  | [] => ([], [])
  | base :: attrs =>
    (trim base,
      ((attrs.map trim).filter fun attr => !attr.isEmpty).map toAsciiLowercase)

def attrCategory (base attr : Text) : Text :=
  base ++ [attributeMark] ++ attr

section Lookup

variable {engine : RegexEngine} (db : GeositeDb engine.Regex)

def categoryKey (category : Text) : Option Text :=
  if !category.any isAsciiUppercase then some category
  else
    (db.categories.keys ++ db.keywords.keys ++ db.regexCompiled.keys).find? fun key =>
      eqIgnoreAsciiCase key category

def bucketExists (key : Text) : Bool :=
  key ∈ db.categories || key ∈ db.keywords || key ∈ db.regexCompiled

/-- Whether one of the buckets of a key has a domain. -/
def lookupResolved (key domain : Text) : Bool :=
  ((db.categories.lookup key).any fun trie => (trie.search domain).isSome) ||
    ((db.keywords.lookup key).any fun keywords => keywords.any (· <:+: domain)) ||
    ((db.regexCompiled.lookup key).any fun regexes => regexes.any (engine.isMatch · domain))

def lookupOne (category domain : Text) : Bool :=
  match db.categoryKey category with
  | some key => db.lookupResolved key domain
  | none => false

def lookup (category domain : Text) : Bool :=
  let (base, attrs) := splitCategoryAttrs category
  if !attrs.isEmpty then attrs.all fun attr => db.lookupOne (attrCategory base attr) domain
  else db.lookupOne base domain

/-- The keys of buckets that must all exist. -/
def existingKeys : List Text → Option (List Text)
  | [] => some []
  | key :: keys => do
      let canon ← db.categoryKey key
      let rest ← existingKeys keys
      if db.bucketExists canon then some (canon :: rest) else none

def resolveKeys (category : Text) : Option (List Text) :=
  let (base, attrs) := splitCategoryAttrs category
  if base.isEmpty then none
  else
    db.existingKeys (if attrs.isEmpty then [base] else attrs.map (attrCategory base))

variable {db}

theorem lookupResolved_of_not_bucketExists {key : Text} (hm : db.bucketExists key = false)
    (dom : Text) : db.lookupResolved key dom = false := by
  simp only [bucketExists, Bool.or_eq_false_iff, decide_eq_false_iff_not] at hm
  obtain ⟨⟨ht, hk⟩, hr⟩ := hm
  simp [lookupResolved, AList.lookup_eq_none.mpr ht, AList.lookup_eq_none.mpr hk,
    AList.lookup_eq_none.mpr hr]

/-- The resolved keys of categories stand for the categories; when one cannot be resolved, its
category has no domains. -/
theorem lookupOne_of_existingKeys (categories : List Text) (dom : Text) :
    categories.all (fun cat => db.lookupOne cat dom) =
      match db.existingKeys categories with
      | some keys => keys.all fun key => db.lookupResolved key dom
      | none => false := by
  induction categories with
  | nil => rfl
  | cons cat categories ih =>
    rw [all_cons, ih, existingKeys, lookupOne]
    cases db.categoryKey cat with
    | none => simp
    | some canon =>
      cases ex : db.existingKeys categories with
      | none => simp
      | some keys =>
        cases hi : db.bucketExists canon with
        | true => simp [hi]
        | false => simp [hi, lookupResolved_of_not_bucketExists hi]

/-- What the compiler makes of a category with a base is what the rule looks up. -/
theorem lookup_eq_resolveKeys {cat : Text} (base : (splitCategoryAttrs cat).1 ≠ []) (dom : Text) :
    db.lookup cat dom =
      match db.resolveKeys cat with
      | some keys => keys.all fun key => db.lookupResolved key dom
      | none => false := by
  rw [lookup, resolveKeys]
  generalize splitCategoryAttrs cat = parts at base
  obtain ⟨name, attrs⟩ := parts
  have hn : name.isEmpty = false := by simpa using base
  simp only [hn, Bool.false_eq_true, if_false]
  cases attrs with
  | nil =>
    have hs := @lookupOne_of_existingKeys engine db [name] dom
    rw [all_cons, all_nil, Bool.and_true] at hs
    exact hs
  | cons attr attrs =>
    have he := @lookupOne_of_existingKeys engine db ((attr :: attrs).map (attrCategory name))
      dom
    rw [List.all_map] at he
    exact he

end Lookup

end GeositeDb

end MeowRs
