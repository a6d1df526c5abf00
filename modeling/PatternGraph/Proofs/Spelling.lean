/-
  PatternGraph.Proofs.Spelling

  How anonymous names are spelled.  A name is taken for anonymous by its
  spelling, which is the stem and digits.  Numbers are written without needless
  zeros and stop somewhere, so there are names that are taken for anonymous and
  are the name of no number.
-/
import Mathlib.Algebra.Order.Ring.Nat
import PatternGraph.Proofs.Anonymity

namespace PatternGraph

/-! ## Numerals -/

/-- One decimal digit or more. -/
structure IsNumeral (digits : List Char) : Prop where
  ne_nil : digits ≠ []
  isDigit : ∀ c ∈ digits, c.isDigit = true

/-- A zero comes first only if it is all there is. -/
def IsTrimmed (digits : List Char) : Prop := digits.head? = some '0' → digits = ['0']

/-- The number that digits are read as. -/
def numeralValue (digits : List Char) : Nat := Nat.ofDigitChars 10 digits 0

theorem exists_digitChar {c : Char} (hc : c.isDigit = true) : ∃ k < 10, c = k.digitChar := by
  have hrange : 48 ≤ c.toNat ∧ c.toNat ≤ 57 := Char.isDigit_iff_toNat.mp hc
  have hk : c.toNat - 48 < 10 := by omega
  refine ⟨c.toNat - 48, hk, Char.toNat_inj.mp ?_⟩
  rw [Nat.toNat_digitChar_of_lt_ten hk]
  omega

/-- Digits after a number go on writing it, unless the number is zero. -/
theorem toDigits_ofDigitChars {digits : List Char} (isDigit : ∀ c ∈ digits, c.isDigit = true)
    {n : Nat} (hn : 0 < n) :
    Nat.toDigits 10 (Nat.ofDigitChars 10 digits n) = Nat.toDigits 10 n ++ digits := by
  induction digits generalizing n with
  | nil => rw [Nat.ofDigitChars_nil, List.append_nil]
  | cons c rest ih =>
      obtain ⟨k, hk, rfl⟩ := exists_digitChar (isDigit c List.mem_cons_self)
      have hpos : 0 < 10 * n + k := by omega
      rw [Nat.ofDigitChars_cons_digitChar_of_lt_ten hk,
        ih (fun d hd => isDigit d (List.mem_cons_of_mem _ hd)) hpos,
        ← Nat.toDigits_append_toDigits (by decide) hn hk, Nat.toDigits_of_lt_base hk,
        List.append_assoc, List.singleton_append]

theorem isNumeral_toDigits (n : Nat) : IsNumeral (Nat.toDigits 10 n) where
  ne_nil := Nat.toDigits_ne_nil
  isDigit _ hc := Nat.isDigit_of_mem_toDigits (by decide) (by decide) hc

theorem numeralValue_toDigits (n : Nat) : numeralValue (Nat.toDigits 10 n) = n :=
  Nat.ofDigitChars_ten_toDigits

/-- A numeral without needless zeros is how its value is written. -/
theorem IsNumeral.toDigits_numeralValue {digits : List Char} (numeral : IsNumeral digits)
    (trimmed : IsTrimmed digits) : Nat.toDigits 10 (numeralValue digits) = digits := by
  cases digits with
  | nil => exact absurd rfl numeral.ne_nil
  | cons c rest =>
      obtain ⟨k, hk, rfl⟩ := exists_digitChar (numeral.isDigit c List.mem_cons_self)
      rw [numeralValue, Nat.ofDigitChars_cons_digitChar_of_lt_ten hk]
      rcases Nat.eq_zero_or_pos k with rfl | hpos
      · obtain ⟨-, rfl⟩ := List.cons.inj (trimmed rfl)
        rfl
      · rw [Nat.mul_zero, Nat.zero_add,
          toDigits_ofDigitChars (fun d hd => numeral.isDigit d (List.mem_cons_of_mem _ hd)) hpos,
          Nat.toDigits_of_lt_base hk, List.singleton_append]

/-- No number is written with a needless zero. -/
theorem isTrimmed_toDigits (n : Nat) : IsTrimmed (Nat.toDigits 10 n) := by
  induction n using Nat.strongRecOn with
  | ind n ih =>
      intro hhead
      rcases Nat.lt_or_ge n 10 with hlt | hge
      · rw [Nat.toDigits_of_lt_base hlt] at hhead ⊢
        exact congrArg (fun c => [c]) (Option.some.inj hhead)
      · -- all digits but the last write a tenth of the number, which is not zero
        rw [Nat.toDigits_of_base_le (by decide) hge,
          List.head?_append_of_ne_nil _ Nat.toDigits_ne_nil] at hhead
        have hzero := congrArg numeralValue (ih (n / 10) (by omega) hhead)
        rw [numeralValue_toDigits] at hzero
        have : numeralValue ['0'] = 0 := rfl
        omega

/-! ## The spelling of names -/

/-- The name is the stem and the digits. -/
def Spells (name : String) (digits : List Char) : Prop :=
  name.toList = anonymousStem.toList ++ digits

theorem Spells.inj {name : String} {l m : List Char} (hl : Spells name l) (hm : Spells name m) :
    l = m :=
  List.append_cancel_left (hl.symm.trans hm)

/-- The names that are taken for anonymous are the stem with a numeral. -/
theorem isAnonymous_iff {name : String} :
    isAnonymous name = true ↔ ∃ digits, IsNumeral digits ∧ Spells name digits := by
  have hstem : anonymousStem.toList = ['_', 'a', 'n', 'o', 'n', '_'] := by decide +kernel
  have hread : ∀ digits,
      (!digits.isEmpty && digits.all Char.isDigit) = true ↔ IsNumeral digits := by
    intro digits
    rw [Bool.and_eq_true, Bool.not_eq_true', List.isEmpty_eq_false_iff, List.all_eq_true]
    exact ⟨fun h => ⟨h.1, h.2⟩, fun h => ⟨h.ne_nil, h.isDigit⟩⟩
  constructor
  · intro h
    rw [isAnonymous] at h
    split at h
    · next digits hname => exact ⟨digits, (hread digits).mp h, by rw [Spells, hname, hstem]; rfl⟩
    · cases h
  · rintro ⟨digits, numeral, hname⟩
    rw [isAnonymous, hname, hstem]
    exact (hread digits).mpr numeral

theorem spells_anonymousName (n : Nat) : Spells (anonymousName n) (Nat.toDigits 10 n) :=
  toList_anonymousName n

theorem eq_anonymousName_iff {name : String} {n : Nat} :
    name = anonymousName n ↔ Spells name (Nat.toDigits 10 n) :=
  ⟨fun h => h ▸ spells_anonymousName n,
    fun h => String.toList_inj.mp (h.trans (spells_anonymousName n).symm)⟩

/-- The names of the numbers below a bound are the stem with a numeral that has no needless zero
    and is below the bound. -/
theorem exists_eq_anonymousName_iff {name : String} {bound : Nat} :
    (∃ n < bound, name = anonymousName n) ↔
      ∃ digits, IsNumeral digits ∧ IsTrimmed digits ∧ numeralValue digits < bound ∧
        Spells name digits := by
  constructor
  · rintro ⟨n, hn, rfl⟩
    refine ⟨Nat.toDigits 10 n, isNumeral_toDigits n, isTrimmed_toDigits n, ?_,
      spells_anonymousName n⟩
    rw [numeralValue_toDigits]
    exact hn
  · rintro ⟨digits, numeral, trimmed, hvalue, hname⟩
    refine ⟨numeralValue digits, hvalue, eq_anonymousName_iff.mpr ?_⟩
    rw [numeral.toDigits_numeralValue trimmed]
    exact hname

/-- A name that is taken for anonymous is the name of a number below a bound exactly if its numeral
    has no needless zero and is below the bound. -/
theorem isAnonymous_iff_named {name : String} {bound : Nat} :
    (isAnonymous name = true ↔ ∃ n < bound, name = anonymousName n) ↔
      ∀ digits, IsNumeral digits → Spells name digits →
        IsTrimmed digits ∧ numeralValue digits < bound := by
  rw [isAnonymous_iff, exists_eq_anonymousName_iff]
  constructor
  · intro h digits numeral hname
    obtain ⟨digits', -, trimmed, hvalue, hname'⟩ := h.mp ⟨digits, numeral, hname⟩
    obtain rfl := hname'.inj hname
    exact ⟨trimmed, hvalue⟩
  · intro h
    constructor
    · rintro ⟨digits, numeral, hname⟩
      obtain ⟨trimmed, hvalue⟩ := h digits numeral hname
      exact ⟨digits, numeral, trimmed, hvalue, hname⟩
    · rintro ⟨digits, numeral, -, -, hname⟩
      exact ⟨digits, numeral, hname⟩

/-! ## What is renamed, and what joins -/

namespace Graph

/-- A name that is bound to a node stays bound to it when nodes are added after the others. -/
theorem nodeNamed?_of_append {g h : Graph} {names : List (Option String)}
    (hslots : h.nameSlots = g.nameSlots ++ names) {a : String} {x : NodeId}
    (ha : g.nodeNamed? a = some x) : h.nodeNamed? a = some x := by
  rw [nodeNamed?_eq] at ha ⊢
  obtain ⟨i, hi, rfl⟩ := Option.map_eq_some_iff.mp ha
  rw [hslots, List.findIdx?_append, hi]
  rfl

/-- What the map replaces are the anonymous names that are bound. -/
theorem KeepsApart.ne_iff {g : Graph} {w : Walk} {f : String → String} {a : String}
    (apart : g.KeepsApart w f) (ha : a ∈ w.names) :
    f a ≠ a ↔ isAnonymous a = true ∧ g.binds a = true := by
  constructor
  · intro hne
    constructor
    · exact Bool.of_not_eq_false fun hplain => hne (apart.kept a ha (.inl hplain))
    · exact Bool.of_not_eq_false fun hfree => hne (apart.kept a ha (.inr hfree))
  · rintro ⟨hanon, hbound⟩ hsame
    obtain ⟨-, -, hnew⟩ := apart.fresh a ha hanon hbound
    rw [hsame] at hnew
    exact hnew ha

end Graph

/-- A name is taken for anonymous if it is the stem with a numeral, and then it is the name of a
    number of 64 bits unless the numeral has a needless zero or is too great.  When a path is added
    to a graph that can come up, exactly the bound names that are taken for anonymous are replaced;
    a node that is written under a bound name joins the node of that name if the name is spelled
    otherwise, and only then. -/
theorem anonymous_spelling (name : String) {g g' : Graph} {c : Catalog} {p : Path}
    (reach : Reachable g) (h : Edit.addPath c p g = .ok () g') :
    (isAnonymous name = true ↔ ∃ digits, IsNumeral digits ∧ Spells name digits) ∧
    ((isAnonymous name = true ↔ ∃ n < 2 ^ 64, name = anonymousName n) ↔
      ∀ digits, IsNumeral digits → Spells name digits →
        IsTrimmed digits ∧ numeralValue digits < 2 ^ 64) ∧
    ∃ (w : Walk) (f : String → String), p = w.path ∧ Edit.addWalk c (w.rename f) g = .ok () g' ∧
      g'.edgeContents = g.edgeContents ++ (w.rename f).links.map (linkContent c) ∧
      (∀ a ∈ w.names,
        f a ≠ a ↔ (∃ digits, IsNumeral digits ∧ Spells a digits) ∧ g.binds a = true) ∧
      ∀ n ∈ w.nodes, ∀ x, g.nodeNamed? n.name = some x →
        g'.nodeNamed? n.name = some x ∧
          (g'.nodeNamed? (f n.name) = some x ↔
            ¬ ∃ digits, IsNumeral digits ∧ Spells n.name digits) := by
  refine ⟨isAnonymous_iff, isAnonymous_iff_named, ?_⟩
  obtain ⟨w, f, hpath, apart, hrun, hedges, -⟩ := reach.anonymous_apart h
  refine ⟨w, f, hpath, hrun, hedges, fun a ha => ?_, fun n hn x hx => ?_⟩
  · rw [apart.ne_iff ha, isAnonymous_iff]
  · have hname := Graph.mem_names_of_node (List.mem_map_of_mem hn)
    have hbound : g.binds n.name = true := by rw [Graph.binds, Graph.hasNode, hx]; rfl
    have hstays : g'.nodeNamed? n.name = some x := by
      rw [Edit.addWalk_eq_extend hrun]
      exact Graph.nodeNamed?_of_append (Graph.nameSlots_extend c g _) hx
    have hkept : g'.nodeNamed? (f n.name) = some x ↔ f n.name = n.name := by
      refine ⟨fun hjoins => ?_, fun hsame => by rw [hsame, hstays]⟩
      have hleft := Graph.nameOf?_of_nodeNamed? hjoins
      rw [Graph.nameOf?_of_nodeNamed? hstays] at hleft
      exact (Option.some.inj hleft).symm
    refine ⟨hstays, ?_⟩
    rw [hkept, ← isAnonymous_iff, ← not_ne_iff, apart.ne_iff hname, hbound]
    simp only [and_true]

/-- A node that is written as the stem with a letter joins the node of that name, and only the
    other node of the path is new. -/
theorem anonymous_spelling_of_letter :
    let g := (Command.addNode "_anon_x").run (.empty .standard)
    let p : Path := ⟨[.node ⟨"_anon_x", none⟩, .edge ⟨"r", .outgoing, [], none⟩,
      .node ⟨"b", none⟩]⟩
    ∃ g', Edit.addPath .empty p g = .ok () g' ∧ g'.nodeNamed? "_anon_x" = some ⟨0⟩ ∧
      g'.nodeCount = 2 := by
  intro g p
  have reach : Reachable g := .run _ (.empty .standard) nofun nofun
  let w : Walk := ⟨⟨"_anon_x", none⟩, [⟨⟨"r", .outgoing, [], none⟩, ⟨"b", none⟩⟩]⟩
  have hwalk : p.walk? = .ok w := rfl
  have hacc : g.accept (g.renamed w) = .ok () := by decide +kernel
  have hrun : Edit.addPath .empty p g = .ok () (g.extend .empty (g.renamed w)) :=
    (Edit.addPath_eq_ok reach.sound.slots).mpr ⟨w, hwalk, hacc, by decide +kernel, rfl⟩
  have hx : g.nodeNamed? "_anon_x" = some ⟨0⟩ := by decide +kernel
  obtain ⟨hspelled, -, w', f, hpath, -, -, hrenamed, hjoins⟩ :=
    anonymous_spelling "_anon_x" reach hrun
  have hsame : w = w' := by
    rw [hpath, Path.walk?_path] at hwalk
    exact (Except.ok.inj hwalk).symm
  subst hsame
  have hletter : ¬ ∃ digits, IsNumeral digits ∧ Spells "_anon_x" digits :=
    mt hspelled.mpr (by decide +kernel)
  have hkept : f "_anon_x" = "_anon_x" := by
    by_contra hne
    exact hletter ((hrenamed "_anon_x" List.mem_cons_self).mp hne).1
  have hnode : (⟨"_anon_x", none⟩ : PathNode) ∈ w.nodes := List.mem_cons_self
  have hjoined := (hjoins _ hnode _ hx).2.mpr hletter
  rw [hkept] at hjoined
  exact ⟨_, hrun, hjoined, by decide +kernel⟩

/-- The stem with a needless zero is taken for anonymous, though it is the name of no number, and
    a node that is written under it does not join the node of that name. -/
theorem anonymous_spelling_of_needless_zero :
    isAnonymous "_anon_01" = true ∧ (∀ n, anonymousName n ≠ "_anon_01") ∧
      ∃ g', Edit.addPath .empty ⟨[.node ⟨"_anon_01", none⟩]⟩
          ((Command.addNode "_anon_01").run (.empty .standard)) = .ok () g' ∧
        g'.nodeCount = 2 := by
  refine ⟨by decide +kernel, fun n hn => ?_, ?_⟩
  · have hspelled : Spells "_anon_01" ['0', '1'] := by unfold Spells; decide +kernel
    have hdigits := (eq_anonymousName_iff.mp hn.symm).inj hspelled
    have trimmed := isTrimmed_toDigits n
    rw [hdigits] at trimmed
    cases trimmed rfl
  · let g := (Command.addNode "_anon_01").run (.empty .standard)
    let w : Walk := ⟨⟨"_anon_01", none⟩, []⟩
    have hacc : g.accept (g.renamed w) = .ok () := by decide +kernel
    have hslots : g.HasSlots 0 0 := by decide +kernel
    exact ⟨g.extend .empty (g.renamed w),
      (Edit.addPath_eq_ok hslots).mpr ⟨w, rfl, hacc, by decide +kernel, rfl⟩, by decide +kernel⟩

end PatternGraph
