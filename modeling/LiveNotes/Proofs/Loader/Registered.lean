import LiveNotes.Loader.Host
import LiveNotes.Proofs.Script.Grammar.Bodies
import LiveNotes.Proofs.Transpile.Runtime

/-! What the static host makes of imports that are read from the registry. Such an import is written with
its source in quotes, and the host takes what stands between the quotes for the source. It finds every
read that is written, but what it asks the registry for is the source with its escapes. -/

namespace LiveNotes.StaticHost

open Text

variable {global cs rest before : List Char}

/-! ### Finding a read -/

theorem quotedRest?_cons {c : Char} (hquote : c ≠ '\x22') (hslash : c ≠ '\x5c') (cs : List Char) :
    quotedRest? (c :: cs) = (quotedRest? cs).map fun (s, rest) => (c :: s, rest) := by
  rw [quotedRest?]
  · exact hquote
  · exact fun _ h => absurd h hslash
  · exact fun _ _ h => absurd h hslash
  · exact fun h => absurd h hslash

theorem quotedRest?_escape {c : Char} (hline : c ≠ '\n') (cs : List Char) :
    quotedRest? ('\x5c' :: c :: cs) =
      (quotedRest? cs).map fun (s, rest) => ('\x5c' :: c :: s, rest) := by
  rw [quotedRest?]
  exact hline

/-- A character that stands for itself in quotes. -/
def IsPlain (c : Char) : Prop := c ≠ '\x22' ∧ c ≠ '\x5c' ∧ 32 ≤ c.toNat

instance (c : Char) : Decidable (IsPlain c) := inferInstanceAs (Decidable (_ ∧ _))

theorem quoteChar_cases (c : Char) : IsPlain c ∧ quoteChar c = [c] ∨
    ¬ IsPlain c ∧ ((∃ d ∈ ['\x22', '\x5c', 'b', 't', 'n', 'f', 'r'], quoteChar c = ['\x5c', d]) ∨
      quoteChar c = '\x5c' :: 'u' :: fourHexDigits c.toNat) := by
  by_cases hplain : IsPlain c
  · obtain ⟨hquote, hslash, hcode⟩ := hplain
    have hcontrol : ∀ d : Char, d.toNat < 32 → c ≠ d := by
      rintro d hd rfl
      omega
    refine Or.inl ⟨⟨hquote, hslash, hcode⟩, ?_⟩
    rw [quoteChar, if_neg hquote, if_neg hslash, if_neg (hcontrol _ (by decide)),
      if_neg (hcontrol _ (by decide)), if_neg (hcontrol _ (by decide)),
      if_neg (hcontrol _ (by decide)), if_neg (hcontrol _ (by decide)), if_neg (Nat.not_lt.2 hcode)]
  · refine Or.inr ⟨hplain, ?_⟩
    unfold quoteChar
    iterate 7
      split
      · exact Or.inl ⟨_, by decide, rfl⟩
    rw [if_pos]
    · exact Or.inr rfl
    · by_contra hcode
      exact hplain ⟨‹_›, ‹_›, Nat.not_lt.1 hcode⟩

/-- A character in quotes is passed as it is written. -/
theorem quotedRest?_quoteChar (c : Char) (more : List Char) :
    quotedRest? (quoteChar c ++ more) =
      (quotedRest? more).map fun (s, rest) => (quoteChar c ++ s, rest) := by
  rcases quoteChar_cases c with ⟨hplain, hc⟩ | ⟨-, ⟨d, hd, hc⟩ | hc⟩
  · rw [hc]
    exact quotedRest?_cons hplain.1 hplain.2.1 more
  · have hline : d ≠ '\n' := by
      rintro rfl
      contradiction
    rw [hc]
    exact quotedRest?_escape hline more
  · have hdigit : ∀ n < 16, Nat.digitChar n ≠ '\x22' ∧ Nat.digitChar n ≠ '\x5c' := by decide
    have hmod : ∀ m : Nat, Nat.digitChar (m % 16) ≠ '\x22' ∧ Nat.digitChar (m % 16) ≠ '\x5c' :=
      fun m => hdigit _ (Nat.mod_lt m (by decide))
    rw [hc]
    simp only [fourHexDigits, List.map_cons, List.map_nil, List.cons_append, List.nil_append]
    rw [quotedRest?_escape (by decide), quotedRest?_cons (hmod _).1 (hmod _).2,
      quotedRest?_cons (hmod _).1 (hmod _).2, quotedRest?_cons (hmod _).1 (hmod _).2,
      quotedRest?_cons (hmod _).1 (hmod _).2]
    simp only [Option.map_map]
    rfl

theorem quotedRest?_quoteChars (cs rest : List Char) :
    quotedRest? (quoteChars cs ++ '\x22' :: rest) = some (quoteChars cs, rest) := by
  induction cs with
  | nil => rfl
  | cons c cs ih =>
    have hcons : quoteChars (c :: cs) = quoteChar c ++ quoteChars cs := List.flatMap_cons
    rw [hcons, List.append_assoc, quotedRest?_quoteChar, ih]
    rfl

/-- A read from the registry, as it is written. -/
def access (global cs : List Char) : List Char :=
  global ++ '[' :: '\x22' :: quoteChars cs ++ ['\x22', ']']

theorem readAt?_access (global cs rest : List Char) :
    readAt? global (access global cs ++ rest) = some (quoteChars cs, rest) := by
  have hinner : afterStart? (global ++ ['[', '\x22']) (access global cs ++ rest) =
      some (quoteChars cs ++ '\x22' :: ']' :: rest) := by
    rw [afterStart?_eq_some_iff]
    simp [access]
  rw [readAt?, hinner]
  simp only [quotedRest?_quoteChars]

/-- No read starts before the first bracket, nor before the text that stands for the registry there. -/
theorem readAt?_eq_none (global rest : List Char) (hbefore : '[' ∉ before) (hne : before ≠ []) :
    readAt? global (before ++ global ++ '[' :: rest) = none := by
  have hinner : afterStart? (global ++ ['[', '\x22']) (before ++ global ++ '[' :: rest) = none := by
    rw [Option.eq_none_iff_forall_not_mem]
    intro inner hmem
    rw [Option.mem_def, afterStart?_eq_some_iff, List.append_assoc global] at hmem
    -- The text behind `before` would have one more bracket than the registry in it.
    rcases List.append_eq_append_iff.1 hmem with ⟨more, hmore, -⟩ | ⟨more, hmore, hrest⟩
    · have hlen := congrArg List.length hmore
      have hpos := List.length_pos_iff.2 hne
      simp only [List.length_append] at hlen
      omega
    · have hcount := congrArg (List.count '[') hmore
      cases more with
      | nil =>
        have hlen := congrArg List.length hmore
        have hpos := List.length_pos_iff.2 hne
        simp only [List.length_append, List.length_nil] at hlen
        omega
      | cons c more =>
        obtain ⟨rfl, -⟩ : '[' = c ∧ _ := by simpa using hrest
        simp only [List.count_append, List.count_cons_self, List.count_eq_zero.2 hbefore] at hcount
        omega
  rw [readAt?, hinner]

theorem readAt?_eq_none_of_notMem (hcs : '[' ∉ cs) : readAt? global cs = none := by
  have hinner : afterStart? (global ++ ['[', '\x22']) cs = none := by
    rw [Option.eq_none_iff_forall_not_mem]
    intro inner hmem
    rw [Option.mem_def, afterStart?_eq_some_iff] at hmem
    exact hcs (by simp [hmem])
  rw [readAt?, hinner]

/-! ### Finding all reads -/

theorem readsFrom_drop (global : List Char) (skip : Nat) (cs : List Char) :
    readsFrom global skip cs = readsFrom global 0 (cs.drop skip) := by
  induction cs generalizing skip with
  | nil => cases skip <;> rfl
  | cons c cs ih =>
    cases skip with
    | zero => rfl
    | succ skip => rw [readsFrom, ih, List.drop_succ_cons]

theorem readsFrom_eq_nil (hcs : '[' ∉ cs) : readsFrom global 0 cs = [] := by
  induction cs with
  | nil => rfl
  | cons c cs ih =>
    rw [readsFrom, readAt?_eq_none_of_notMem hcs]
    exact ih fun hmem => hcs (List.mem_cons_of_mem c hmem)

/-- The first read is found, and then what follows it is searched. -/
theorem readsFrom_access (hbefore : '[' ∉ before) (global cs rest : List Char) :
    readsFrom global 0 (before ++ access global cs ++ rest) =
      String.ofList (quoteChars cs) :: readsFrom global 0 rest := by
  induction before with
  | nil =>
    obtain ⟨c, more, hcons⟩ : ∃ c more, access global cs ++ rest = c :: more :=
      List.exists_cons_of_ne_nil (by simp [access])
    have hread := readAt?_access global cs rest
    have hlen := congrArg List.length hcons
    have hdrop : more.drop (more.length - rest.length) = rest := by
      have hlast : rest <:+ more := by
        have hsuffix : rest <:+ c :: more := hcons ▸ List.suffix_append _ _
        refine (List.suffix_cons_iff.1 hsuffix).resolve_left ?_
        rintro rfl
        simp [access] at hlen
        omega
      exact (List.suffix_iff_eq_drop.1 hlast).symm
    rw [List.nil_append, hcons] at *
    rw [readsFrom, hread]
    simp only [readsFrom_drop global (more.length - rest.length), hdrop]
  | cons c before ih =>
    have hnone : readAt? global (c :: before ++ access global cs ++ rest) = none := by
      have h := readAt?_eq_none global ('\x22' :: quoteChars cs ++ ['\x22', ']'] ++ rest) hbefore
        (List.cons_ne_nil c before)
      simpa [access] using h
    rw [List.cons_append, List.cons_append, readsFrom]
    rw [List.cons_append, List.cons_append] at hnone
    rw [hnone]
    exact ih fun hmem => hbefore (List.mem_cons_of_mem c hmem)

/-! ### Being refused -/

variable {r : Registry String} {t : UrlTable} {code source : String}

/-- The host with a registry does not run code because it reads a module that is not in there. -/
def Refuses (r : Registry String) (global : String) (t : UrlTable) (code : String) : Prop :=
  ∃ source, (staticHost (some (r, global))).evaluate (t.create code).2 (t.create code).1 =
    .error (.evaluation ("Module \"" ++ source ++ "\" is not registered") none)

theorem evaluate_create (registry : Option (Registry String × String)) (t : UrlTable) (code : String) :
    (staticHost registry).evaluate (t.create code).2 (t.create code).1 =
      exports registry code (t.create code).1 := by
  have hcode : (t.create code).2.code? (t.create code).1 = some code := by
    simp [UrlTable.create, UrlTable.code?]
  change evaluate registry (t.create code).2 (t.create code).1 = _
  rw [evaluate, hcode]

/-- What is said of code that cannot be read is not said of code that is refused. -/
theorem summary_of_analyze {e : BundleError} {id : String} (h : Bundle.analyze code id = .error e)
    (source : String) : e.summary ≠ "Module \"" ++ source ++ "\" is not registered" := by
  have hstart : ∀ s t : String, "Failed to parse module: " ++ s ≠ "Module \"" ++ t := by
    intro s t h
    have htext := congrArg String.toList h
    simp at htext
  have hassoc : "Module \"" ++ source ++ "\" is not registered" =
      "Module \"" ++ (source ++ "\" is not registered") := String.append_assoc
  unfold Bundle.analyze at h
  split at h
  · obtain rfl := Except.error.inj h
    exact fun hsame => hstart _ _ (hsame.trans hassoc)
  · contradiction

theorem refuses_iff {global : String} : Refuses r global t code ↔
    ∃ source ∈ registryReads global code, r.contains source = false := by
  rw [Refuses, evaluate_create]
  unfold exports
  dsimp only
  cases hmissing : (registryReads global code).find? fun s => !r.contains s with
  | some source =>
    have hfound := List.find?_some hmissing
    refine iff_of_true ⟨source, rfl⟩ ⟨source, List.mem_of_find?_eq_some hmissing, ?_⟩
    rwa [Bool.not_eq_true'] at hfound
  | none =>
    rw [List.find?_eq_none] at hmissing
    refine iff_of_false ?_ ?_
    · rintro ⟨source, hrefused⟩
      dsimp only at hrefused
      split at hrefused
      · contradiction
      · next e he =>
        have hsame := (Error.evaluation.inj (Except.error.inj hrefused)).1
        exact summary_of_analyze he source hsame
    · rintro ⟨source, hmem, hnot⟩
      exact hmissing source hmem (by rw [hnot]; rfl)

end LiveNotes.StaticHost

namespace LiveNotes.Transpile

open Script Text StaticHost

variable {options : Options} {plain out source : String} {global : List Char}

/-! ### Writing a read -/

/-- What stands in front of each read in the statements for an import. -/
def readHeads (parts : List Tree) : List String :=
  let properties := parts.filterMap importProperty
  let first := if properties.isEmpty then []
    else ["const \x7b " ++ ", ".intercalate properties ++ " \x7d = "]
  let heads := first ++ (parts.filterMap importWhole).map fun x => "const " ++ x ++ " = "
  if heads.isEmpty then [""] else heads

theorem registryRead_eq (registry source : String) (parts : List Tree) :
    registryRead registry source parts = " ".intercalate
      ((readHeads parts).map fun head => head ++ registryAccess registry source ++ ";") := by
  unfold registryRead readHeads
  cases parts.filterMap importProperty with
  | nil =>
    cases parts.filterMap importWhole <;> simp [String.intercalate_singleton, Function.comp_def]
  | cons p ps => simp [Function.comp_def]

theorem readHeads_ne_nil (parts : List Tree) : readHeads parts ≠ [] := by
  have hheads : ∀ heads : List String, (if heads.isEmpty then [""] else heads) ≠ [] := by
    intro heads
    cases heads <;> simp
  exact hheads _

theorem toList_registryAccess (registry source : String) :
    (registryAccess registry source).toList = access registry.toList source.toList := by
  simp [registryAccess, quoted, access]

/-- All reads of an import are found. -/
theorem readsFrom_heads {heads : List String} (hne : heads ≠ []) {before after : List Char}
    (hbefore : '[' ∉ before) (hheads : ∀ head ∈ heads, '[' ∉ head.toList) (hafter : '[' ∉ after)
    (registry source : String) :
    readsFrom registry.toList 0 (before ++ (" ".intercalate
      (heads.map fun head => head ++ registryAccess registry source ++ ";")).toList ++ after) =
        List.replicate heads.length (String.ofList (quoteChars source.toList)) := by
  induction heads generalizing before with
  | nil => exact absurd rfl hne
  | cons head heads ih =>
    rw [List.forall_mem_cons] at hheads
    have hfront : '[' ∉ before ++ head.toList := by
      simp [hbefore, hheads.1]
    cases heads with
    | nil =>
      have htext : before ++ (" ".intercalate ([head].map fun head =>
          head ++ registryAccess registry source ++ ";")).toList ++ after =
          (before ++ head.toList) ++ access registry.toList source.toList ++ (';' :: after) := by
        simp [String.intercalate_singleton, toList_registryAccess]
      rw [htext, readsFrom_access hfront, readsFrom_eq_nil (by simp [hafter])]
      rfl
    | cons second heads =>
      have htext : before ++ (" ".intercalate ((head :: second :: heads).map fun head =>
          head ++ registryAccess registry source ++ ";")).toList ++ after =
          (before ++ head.toList) ++ access registry.toList source.toList ++
            ([';', ' '] ++ (" ".intercalate ((second :: heads).map fun head =>
              head ++ registryAccess registry source ++ ";")).toList ++ after) := by
        simp [String.intercalate_cons_cons, toList_registryAccess]
      rw [htext, readsFrom_access hfront, ih (List.cons_ne_nil _ _) (by decide) hheads.2]
      rfl

/-! ### Brackets in an import -/

section

variable {k : Tree} {ks : List Tree} {p x : String}

theorem notMem_of_isIdentifierName (h : isIdentifierName x = true) : '[' ∉ x.toList := by
  unfold isIdentifierName at h
  split at h
  · contradiction
  · next c cs hx =>
    rw [Bool.and_eq_true, List.all_eq_true] at h
    rw [hx, List.mem_cons, not_or]
    refine ⟨?_, fun hmem => ?_⟩
    · rintro rfl
      exact absurd h.1 (by decide)
    · exact absurd (h.2 _ hmem) (by decide)

theorem notMem_quoteChars {cs : List Char} (h : '[' ∉ cs) : '[' ∉ quoteChars cs := by
  intro hmem
  obtain ⟨c, hc, hin⟩ := List.mem_flatMap.1 hmem
  rcases quoteChar_cases c with ⟨-, hquote⟩ | ⟨-, ⟨d, hd, hquote⟩ | hquote⟩
  · rw [hquote, List.mem_singleton] at hin
    exact h (hin ▸ hc)
  · rw [hquote] at hin
    have hopen : '[' = d := by simpa using hin
    rw [← hopen] at hd
    contradiction
  · have hdigit : ∀ n < 16, '[' ≠ Nat.digitChar n := by decide
    have hmod : ∀ m : Nat, '[' ≠ Nat.digitChar (m % 16) := fun m => hdigit _ (Nat.mod_lt m (by decide))
    rw [hquote] at hin
    simp [fourHexDigits, hmod] at hin

theorem notMem_quoted {s : String} (h : '[' ∉ s.toList) : '[' ∉ (quoted s).toList := by
  simp [quoted, notMem_quoteChars h]

theorem notMem_intercalate {separator : String} {texts : List String}
    (hseparator : '[' ∉ separator.toList) (htexts : ∀ text ∈ texts, '[' ∉ text.toList) :
    '[' ∉ (separator.intercalate texts).toList := by
  induction texts with
  | nil => simp
  | cons text texts ih =>
    rw [List.forall_mem_cons] at htexts
    cases texts with
    | nil => simpa [String.intercalate_singleton] using htexts.1
    | cons second texts =>
      rw [String.intercalate_cons_cons, String.toList_append, String.toList_append, List.mem_append,
        List.mem_append, not_or, not_or]
      exact ⟨⟨htexts.1, hseparator⟩, ih htexts.2⟩

/-- No name in quotes that is imported has a bracket in it. -/
def NamesPlainly (ks : List Tree) : Prop :=
  ∀ k ∈ ks, ∀ name x typeOnly, k.label = .importName name x typeOnly → '[' ∉ name.text.toList

theorem notMem_destructureProperty {imported : String} (himported : '[' ∉ imported.toList)
    (hx : '[' ∉ x.toList) : '[' ∉ (destructureProperty imported x).toList := by
  unfold destructureProperty
  split_ifs
  · simp [notMem_quoted himported, hx]
  · exact hx
  · simp [himported, hx]

theorem notMem_importProperty (hks : ∀ k ∈ ks, BindsVariable k) (hnames : NamesPlainly ks)
    (hk : k ∈ ks) (h : importProperty k = some p) : '[' ∉ p.toList := by
  unfold importProperty at h
  split at h
  · next imported x typeOnly hlabel =>
    have hx : IsVariable x := hks k hk ⟨x, some imported.text⟩ (by simp [partTaken?, hlabel])
    obtain rfl := Option.some.inj h
    exact notMem_destructureProperty (hnames k hk _ _ _ hlabel) (notMem_of_isIdentifierName hx.name)
  · next x hlabel =>
    have hx : IsVariable x := hks k hk ⟨x, some "default"⟩ (by simp [partTaken?, hlabel])
    obtain rfl := Option.some.inj h
    simp [notMem_of_isIdentifierName hx.name]
  · contradiction

theorem notMem_importWhole (hks : ∀ k ∈ ks, BindsVariable k) (hk : k ∈ ks)
    (h : importWhole k = some x) : '[' ∉ x.toList := by
  unfold importWhole at h
  split at h
  · next y hlabel =>
    obtain rfl := Option.some.inj h
    have hx : IsVariable y := hks k hk ⟨y, none⟩ (by simp [partTaken?, hlabel])
    exact notMem_of_isIdentifierName hx.name
  · contradiction

theorem mem_readHeads {head : String} (h : head ∈ readHeads ks) : head = "" ∨
    head = "const \x7b " ++ ", ".intercalate (ks.filterMap importProperty) ++ " \x7d = " ∨
      ∃ x ∈ ks.filterMap importWhole, head = "const " ++ x ++ " = " := by
  unfold readHeads at h
  grind

theorem notMem_readHeads (hks : ∀ k ∈ ks, BindsVariable k) (hnames : NamesPlainly ks) :
    ∀ head ∈ readHeads ks, '[' ∉ head.toList := by
  have hproperties : '[' ∉ (", ".intercalate (ks.filterMap importProperty)).toList := by
    refine notMem_intercalate (by decide) fun p hp => ?_
    obtain ⟨k, hk, hkp⟩ := List.mem_filterMap.1 hp
    exact notMem_importProperty hks hnames hk hkp
  intro head hhead
  rcases mem_readHeads hhead with rfl | rfl | ⟨x, hx, rfl⟩
  · decide
  · simp only [String.toList_append, List.mem_append, not_or]
    exact ⟨⟨by decide, hproperties⟩, by decide⟩
  · obtain ⟨k, hk, hkx⟩ := List.mem_filterMap.1 hx
    simp [notMem_importWhole hks hk hkx]

end

/-! ### The module of an import -/

section

variable {script : Program} {phase : ImportPhase} {bare typeOnly : Bool} {m : Span} {ks : List Tree}

/-- The text in front of a span and the text behind it. -/
def around (text : List Char) (m : Span) : List Char :=
  (splitAtByte m.start text).1 ++ (splitAtByte m.stop text).2

theorem scriptLookups_import (hscript : parse .plainModule plain = some script)
    (hkids : script.tree.kids = [.node (.importDecl phase source bare typeOnly) m ks])
    (hregistered : isRegistered options.globals options.registerImports source = true) :
    scriptLookups options plain script.tree =
      [⟨m.start, m.stop, registryRead options.globals.moduleRegistry source ks⟩] := by
  obtain ⟨tree, _⟩ := script
  obtain ⟨label, span, kids⟩ := tree
  obtain rfl : label = .program := label_parse hscript
  obtain rfl : kids = [_] := hkids
  have hinside : ∀ s : Surroundings, s.options = options →
      lookups s (.node (.importDecl phase source bare typeOnly) m ks) =
        [⟨m.start, m.stop, registryRead options.globals.moduleRegistry source ks⟩] := by
    rintro s rfl
    simp [lookups, hregistered]
  simp only [scriptLookups, lookups, lookupsAll, List.append_nil]
  exact hinside _ rfl

/-- The statements for the import come in its place. -/
theorem toList_of_import (hscript : parse .plainModule plain = some script)
    (hkids : script.tree.kids = [.node (.importDecl phase source bare typeOnly) m ks])
    (hregistered : isRegistered options.globals options.registerImports source = true)
    (hout : withLookups plain options = .ok out) :
    out.toList = (splitAtByte m.start plain.toList).1 ++
      (registryRead options.globals.moduleRegistry source ks).toList ++
        (splitAtByte m.stop plain.toList).2 := by
  obtain ⟨out', made, hout', hmade, hperm⟩ := exists_made hscript options
  obtain rfl : out = out' := Except.ok.inj (hout.symm.trans hout')
  rw [scriptLookups_import hscript hkids hregistered, List.perm_singleton] at hperm
  subst hperm
  generalize plain.toList = text at hmade
  generalize htext : out.toList = text' at hmade
  cases hmade with
  | edit hstart hstop hrest =>
    rename_i before old after made
    obtain rfl := hrest.eq_of_nil
    have hfront : m.start = byteLength before := by simpa using hstart
    have hback : m.stop = byteLength (before ++ old) := by
      rw [byteLength_append, ← hfront]
      exact hstop
    rw [hback, splitAtByte_byteLength, hfront, List.append_assoc before old made,
      splitAtByte_byteLength]

/-- The host finds the reads of the import and nothing else. -/
theorem registryReads_of_import (hscript : parse .plainModule plain = some script)
    (hkids : script.tree.kids = [.node (.importDecl phase source bare typeOnly) m ks])
    (hregistered : isRegistered options.globals options.registerImports source = true)
    (haround : '[' ∉ around plain.toList m) (hnames : NamesPlainly ks)
    (hout : withLookups plain options = .ok out) :
    registryReads options.globals.moduleRegistry out =
      List.replicate (readHeads ks).length (String.ofList (quoteChars source.toList)) := by
  have hmem : .node (.importDecl phase source bare typeOnly) m ks ∈ script.tree.kids := by
    rw [hkids]
    exact List.mem_singleton_self _
  have hbinds : ∀ k ∈ ks, BindsVariable k := importsVariables_parse hscript _ hmem rfl
  rw [around, List.mem_append, not_or] at haround
  rw [registryReads, toList_of_import hscript hkids hregistered hout, registryRead_eq]
  exact readsFrom_heads (readHeads_ne_nil ks) haround.1 (notMem_readHeads hbinds hnames) haround.2 _ _

end

/-! ### What is asked of the registry -/

theorem quoteChars_eq_self_iff (cs : List Char) : quoteChars cs = cs ↔ ∀ c ∈ cs, IsPlain c := by
  induction cs with
  | nil => exact iff_of_true rfl (by simp)
  | cons c cs ih =>
    have hcons : quoteChars (c :: cs) = quoteChar c ++ quoteChars cs := List.flatMap_cons
    rw [hcons, List.forall_mem_cons, ← ih]
    rcases quoteChar_cases c with ⟨hplain, hquote⟩ | ⟨hplain, hquote⟩
    · simp [hquote, hplain]
    · -- More is written for the character than itself, and for the others no less.
      refine iff_of_false (fun hsame => ?_) fun h => hplain h.1
      have hlen := congrArg List.length hsame
      have hle := length_le_length_quoteChars cs
      rw [List.length_append, List.length_cons] at hlen
      rcases hquote with ⟨d, -, hquote⟩ | hquote
      · rw [hquote, List.length_cons, List.length_singleton] at hlen
        omega
      · rw [hquote, List.length_cons, List.length_cons] at hlen
        omega

/-- The registry of one module. -/
def holding (source : String) : Registry String := ({} : Registry String).insert source ""

theorem contains_holding (source other : String) :
    (holding source).contains other = true ↔ other = source := by
  have hget := Registry.get?_insert {} source other ""
  change ((holding source).get? other).isSome = true ↔ _
  rw [holding, hget]
  split
  · exact iff_of_true rfl ‹_›
  · exact iff_of_false Bool.false_ne_true ‹_›

/-- The static host asks the registry for the source of an import with the escapes that it is written
with. So an import is let through exactly when its source is registered for those sources only that
are written as they are. -/
theorem registered_read_iff {script : Program} {phase : ImportPhase} {bare typeOnly : Bool} {m : Span}
    {ks : List Tree} {s : String} (h : transpile source options = .ok out)
    (hplain : lower source options = .ok plain) (hscript : parse .plainModule plain = some script)
    (hkids : script.tree.kids = [.node (.importDecl phase s bare typeOnly) m ks])
    (hregistered : isRegistered options.globals options.registerImports s = true)
    (haround : '[' ∉ around plain.toList m) (hnames : NamesPlainly ks) :
    (∀ r t, ¬ Refuses r options.globals.moduleRegistry t out ↔
        r.contains (String.ofList (quoteChars s.toList)) = true) ∧
      ((∀ r t, ¬ Refuses r options.globals.moduleRegistry t out ↔ r.contains s = true) ↔
        ∀ c ∈ s.toList, IsPlain c) := by
  obtain ⟨plain', hplain', hout⟩ := lower_of_transpile h
  obtain rfl : plain = plain' := Except.ok.inj (hplain.symm.trans hplain')
  have hreads := registryReads_of_import hscript hkids hregistered haround hnames hout
  have hasks : ∀ r t, ¬ Refuses r options.globals.moduleRegistry t out ↔
      r.contains (String.ofList (quoteChars s.toList)) = true := by
    intro r t
    have hpos : (readHeads ks).length ≠ 0 := by
      simpa using readHeads_ne_nil ks
    rw [refuses_iff, hreads]
    simp [List.mem_replicate, hpos]
  refine ⟨hasks, ?_⟩
  rw [← quoteChars_eq_self_iff]
  constructor
  · intro hall
    have hown : ¬ Refuses (holding s) options.globals.moduleRegistry {} out :=
      (hall _ _).2 ((contains_holding s s).2 rfl)
    have hquoted := (contains_holding s _).1 ((hasks _ _).1 hown)
    exact String.ofList_injective (hquoted.trans String.ofList_toList.symm)
  · intro hsame r t
    rw [hasks, hsame, String.ofList_toList]

theorem registered_read_iff_package : ∃ out,
    transpile "import a, { b as c } from 'd';" { registerImports := true } = .ok out ∧
      (∀ r t, ¬ Refuses r "window._livedocModules" t out ↔
          r.contains (String.ofList (quoteChars "d".toList)) = true) ∧
        ((∀ r t, ¬ Refuses r "window._livedocModules" t out ↔ r.contains "d" = true) ↔
          ∀ c ∈ "d".toList, IsPlain c) := by
  have hlower : (lower "import a, { b as c } from 'd';" { registerImports := true }).toOption =
      some "import a, { b as c } from \"d\";\n" := by
    decide +kernel
  have hparts : ∀ s ∈ parse .plainModule "import a, { b as c } from \"d\";\n",
      s.tree.kids = [.node (.importDecl .evaluation "d" false false) ⟨0, 30⟩
        [.node (.importDefault "a") ⟨7, 8⟩ [],
          .node (.importName ⟨"b", false⟩ "c" false) ⟨12, 18⟩ []]] := by
    decide +kernel
  cases hout : transpile "import a, { b as c } from 'd';" { registerImports := true } with
  | error fault =>
    have hsome : (transpile "import a, { b as c } from 'd';"
        { registerImports := true }).toOption.isSome = true := by
      decide +kernel
    simp [hout, Except.toOption] at hsome
  | ok out =>
    obtain ⟨plain, hplain, hlookups⟩ := lower_of_transpile hout
    rw [hplain] at hlower
    obtain rfl := Option.some.inj hlower
    obtain ⟨script, hscript⟩ := exists_parse_of_withLookups hlookups
    refine ⟨out, rfl, registered_read_iff hout hplain hscript (hparts script hscript)
      (by decide +kernel) (by decide +kernel) ?_⟩
    intro k hk name x typeOnly hlabel
    rcases List.mem_cons.1 hk with rfl | hk
    · cases hlabel
    · obtain rfl := List.mem_singleton.1 hk
      obtain ⟨rfl, -⟩ := Label.importName.inj hlabel
      decide

/-- A quote in the source is written with a backslash, which the registry knows nothing of. -/
theorem registered_source_refused :
    (lower "import 'a\"b';" { registerImports := true }).toOption =
        some "import \"a\\\"b\";\n" ∧
      (∀ s ∈ parse .plainModule "import \"a\\\"b\";\n",
        s.tree.kids = [.node (.importDecl .evaluation "a\"b" true false) ⟨0, 14⟩ []]) ∧
      isRegistered {} true "a\"b" = true ∧
      (transpile "import 'a\"b';" { registerImports := true }).toOption =
        some "window._livedocModules[\"a\\\"b\"];\n" ∧
      (holding "a\"b").contains "a\"b" = true ∧
      Refuses (holding "a\"b") "window._livedocModules" {}
        "window._livedocModules[\"a\\\"b\"];\n" := by
  refine ⟨by decide +kernel, by decide +kernel, by decide +kernel, by decide +kernel,
    by decide +kernel, ?_⟩
  rw [refuses_iff]
  decide +kernel

end LiveNotes.Transpile
