import LiveNotes.Proofs.Bundle.InPlace
import LiveNotes.Proofs.Transpile.Frame
import Mathlib.Data.List.Pairwise

/-! No edit of a module gets lost. The edits of a script lie apart from each other, and so do those that link a module,
but for a call that imports inside another such call. -/

namespace LiveNotes.Bundle

open Script Text Grammar Edit
open Transpile (withLookups scriptLookups editSpan)

variable {g : ModuleGraph} {importer code id : String} {a : Analysis} {text : List Char} {t : Tree} {ts : List Tree}
  {items : List LinkItem} {es ds : List Edit} {e d : Edit} {n m k l lo hi : Nat}

/-! ### Edits of one statement -/

/-- The edits of calls take their places, in the order of the calls. -/
theorem Leaves.spans (h : Leaves g importer n items es) (hcalls : ∀ item ∈ items, item.kind.isDynamic = true) :
    (es.map editSpan).Sublist (items.map (·.span)) := by
  induction h with
  | nil => exact List.Sublist.refl _
  | @item sources item items es target _ _ ih =>
    obtain ⟨hitem, hitems⟩ := List.forall_mem_cons.1 hcalls
    obtain ⟨new, hone | ⟨at_, hkind, -⟩⟩ := edits_cases item target sources
    · rw [hone]
      exact (ih hitems).cons_cons item.span
    · rw [hkind] at hitem
      contradiction
  | unknown _ _ ih => exact (ih (List.forall_mem_cons.1 hcalls).2).cons _

theorem isDynamic_callItems {item : LinkItem} (h : item ∈ callItems t) : item.kind.isDynamic = true := by
  obtain ⟨call, -, rfl⟩ := List.mem_map.1 h
  rfl

theorem spans_callItems (h : Leaves g importer k (callItems t) ds) : (ds.map editSpan).Sublist t.calls := by
  have hspans : (callItems t).map (·.span) = (dynamicImports t).map Prod.fst := List.map_map
  exact ((hspans ▸ h.spans fun _ => isDynamic_callItems).trans (spans_sublist t))

/-- Edits of the calls in a statement lie apart from each other, or inside each other. -/
theorem nested_calls (h : Stands text lo hi t) (hcalls : Leaves g importer k (callItems t) ds) : ds.Pairwise Nested := by
  have hspans := spans_callItems hcalls
  have hlt (e : Edit) (he : e ∈ ds) : e.start < e.stop := (h.calls _ (hspans.subset (List.mem_map_of_mem he))).lt
  have hnested := h.nested.sublist hspans
  rw [List.pairwise_map] at hnested
  refine hnested.imp_of_mem fun {e d} he hd hspan => hspan.imp_right (Or.imp ?_ ?_)
  · exact fun hinside => ⟨hinside.1, hlt e he, hinside.2⟩
  · exact fun hinside => ⟨hinside.1, hlt d hd, hinside.2⟩

/-- The words that export something stand in front of it, over whose start no call reaches. -/
theorem apart_own (h : Stands text lo hi t) (hown : Leaves g importer n (itemAnalysis text t).items es) :
    es.Pairwise Apart ∧ ∀ e ∈ es, ∀ s ∈ t.calls, s.Apart (editSpan e) := by
  have hone {item : LinkItem} (hown : Leaves g importer n [item] es) :
      ∃ target, es = item.edits target n ∨ es = [] := by
    cases hown with
    | item _ hnil =>
      cases hnil
      exact ⟨_, .inl (List.append_nil _)⟩
    | unknown _ hnil =>
      cases hnil
      exact ⟨"", .inr rfl⟩
  rcases items_cases text t with hnone | ⟨hlink, kind, hkind, hitems⟩ | ⟨hexport, d, kind, hkids, hat, hitems⟩
  · rw [hnone] at hown
    cases hown
    exact ⟨.nil, nofun⟩
  · rw [hitems] at hown
    obtain ⟨target, rfl | rfl⟩ := hone hown
    · obtain ⟨new, hedits | ⟨at_, rfl, -⟩⟩ := edits_cases ⟨t.span, kind⟩ target n
      · rw [hedits, h.link hlink]
        exact ⟨List.pairwise_singleton _ _, nofun⟩
      · contradiction
    · exact ⟨.nil, nofun⟩
  · obtain ⟨hfront, huncut⟩ := h.front hexport d (hkids ▸ List.mem_singleton_self d)
    have hlies := h.item (isModuleItem_of_isExport hexport)
    have hcalls : t.calls = d.calls := by
      obtain ⟨label, span, ks⟩ := t
      obtain rfl : ks = [d] := hkids
      rcases hexport with rfl | rfl
      all_goals exact callsAll_singleton d
    have hcut (s : Span) (hs : s ∈ t.calls) : s.Apart ⟨t.span.start, d.span.start⟩ :=
      (huncut.calls s (hcalls ▸ hs)).imp_right And.left
    have hend (s : Span) (hs : s ∈ t.calls) : s.Apart ⟨t.span.stop, t.span.stop⟩ := by
      refine .inl ((huncut.calls s (hcalls ▸ hs)).elim (fun hle => ?_) And.right)
      exact Nat.le_trans hle (Nat.le_of_lt hlies.lt)
    rw [hitems] at hown
    obtain ⟨target, rfl | rfl⟩ := hone hown
    · obtain ⟨new, hedits | ⟨at_, hkind, hedits⟩⟩ := edits_cases ⟨⟨t.span.start, d.span.start⟩, kind⟩ target n
      · rw [hedits]
        exact ⟨List.pairwise_singleton _ _, List.forall_mem_singleton.2 hcut⟩
      · rw [hedits, hat at_ hkind]
        exact ⟨List.pairwise_pair.2 (.inl huncut.le),
          List.forall_mem_cons.2 ⟨hcut, List.forall_mem_singleton.2 hend⟩⟩
    · exact ⟨.nil, nofun⟩

/-! ### Edits of a module -/

/-- The edit takes the place of a call that imports. -/
def IsCallEdit (items : List LinkItem) (e : Edit) : Prop :=
  ∃ item ∈ items, item.kind.isDynamic = true ∧ ∃ target sources, e ∈ item.edits target sources

/-- Two edits lie apart from each other, or they are of calls that import, one inside the other. -/
def ApartOrCalls (items : List LinkItem) (e d : Edit) : Prop :=
  Apart e d ∨ IsCallEdit items e ∧ IsCallEdit items d ∧ (Inside e d ∨ Inside d e)

theorem ApartOrCalls.symm (h : ApartOrCalls items e d) : ApartOrCalls items d e :=
  h.imp Or.symm fun ⟨he, hd, hinside⟩ => ⟨hd, he, hinside.symm⟩

instance : Std.Symm (ApartOrCalls items) := ⟨fun _ _ => ApartOrCalls.symm⟩

theorem ApartOrCalls.nested (h : ApartOrCalls items e d) : Nested e d := h.imp_right fun h => h.2.2

/-- Of edits such as these only those of calls inside others are left out. -/
theorem exists_outer (h : es.Pairwise (ApartOrCalls items)) (he : e ∈ es) (hleft : isOutermost es e = false) :
    ∃ d ∈ es, IsCallEdit items e ∧ IsCallEdit items d ∧ Inside e d := by
  obtain ⟨d, hd, hinside⟩ : ∃ d ∈ es, Inside e d := by
    by_contra hnone
    rw [isOutermost_iff.2 fun d hd hinside => hnone ⟨d, hd, hinside⟩] at hleft
    contradiction
  have hne : e ≠ d := by
    rintro rfl
    exact Nat.lt_irrefl _ hinside.1
  refine ⟨d, hd, ?_⟩
  rcases h.forall he hd hne with happart | ⟨hcall, hcall', -⟩
  · have hbefore := hinside.1
    have hlength := hinside.2.1
    have hend := hinside.2.2
    rcases happart with hle | hle <;> omega
  · exact ⟨hcall, hcall', hinside⟩

theorem isCallEdit_of_mem (h : Leaves g importer k (callItems t) ds) (hitems : ∀ item ∈ callItems t, item ∈ items)
    (he : e ∈ ds) : IsCallEdit items e := by
  obtain ⟨item, hitem, target, k, he⟩ := h.exists_item he
  exact ⟨item, hitems item hitem, isDynamic_callItems hitem, target, k, he⟩

/-- The edits of one statement. -/
theorem apart_statement (h : Stands text lo hi t) (hitems : ∀ item ∈ callItems t, item ∈ items)
    (hown : Leaves g importer n (itemAnalysis text t).items es) (hcalls : Leaves g importer k (callItems t) ds) :
    (es ++ ds).Pairwise (ApartOrCalls items) := by
  obtain ⟨hapart, hcross⟩ := apart_own h hown
  refine List.pairwise_append.2 ⟨hapart.imp .inl, ?_, fun e he d hd => ?_⟩
  · refine (nested_calls h hcalls).imp_of_mem fun {e d} he hd hnested => hnested.imp_right fun hinside => ?_
    exact ⟨isCallEdit_of_mem hcalls hitems he, isCallEdit_of_mem hcalls hitems hd, hinside⟩
  · have hspan := hcross e he (editSpan d) ((spans_callItems hcalls).subset (List.mem_map_of_mem hd))
    exact .inl hspan.symm

/-- The edits of statements behind each other. -/
theorem apart_lined (h : Lined text n ts m) (hitems : ∀ item ∈ ts.flatMap callItems, item ∈ items)
    (hes : Leaves g importer k (ts.flatMap fun t => (itemAnalysis text t).items) es)
    (hds : Leaves g importer l (ts.flatMap callItems) ds) : (es ++ ds).Pairwise (ApartOrCalls items) := by
  induction h generalizing k l es ds with
  | nil =>
    cases hes
    cases hds
    exact .nil
  | @cons n lo hi m t ts hle hstands hrest ih =>
    rw [List.flatMap_cons] at hes hds hitems
    obtain ⟨hcallItems, hitems⟩ := List.forall_mem_append.1 hitems
    obtain ⟨own, es, rfl, hown, hes⟩ := hes.split
    obtain ⟨calls, ds, rfl, hcalls, hds⟩ := hds.split
    have hperm : ((own ++ es) ++ (calls ++ ds)).Perm ((own ++ calls) ++ (es ++ ds)) := by
      simp only [List.append_assoc]
      exact (List.perm_append_comm_assoc es calls ds).append_left own
    rw [hperm.pairwise_iff ApartOrCalls.symm]
    refine List.pairwise_append.2 ⟨apart_statement hstands hcallItems hown hcalls, ih hitems hes hds, ?_⟩
    -- what follows a statement stands behind it
    intro e he d hd
    have hinside := between_lined (Lined.singleton hstands) (by simpa using hown) (by simpa using hcalls) e he
    have hbehind := between_lined hrest hes hds d hd
    exact .inl (.inl (Nat.le_trans hinside.stop hbehind.start))

/-- The edits that link a module, statement by statement. -/
theorem link_edits (h : analyze code id = .ok a) (g : ModuleGraph) (externals : List String) :
    (∀ e ∈ (g.link externals ⟨id, code, a⟩).edits, ∃ old, e.Replaces code.toList old) ∧
      (g.link externals ⟨id, code, a⟩).edits.Pairwise (ApartOrCalls a.items) := by
  obtain ⟨script, hscript, hitems⟩ := exists_of_analyze h
  obtain ⟨m, hlined⟩ := lined_parse hscript
  obtain ⟨es, hedits, hleaves⟩ := exists_leaves g id a.items { getters := a.exports, externals := externals }
  rw [items_dynamicImports (label_parse hscript)] at hitems
  rw [hitems] at hleaves
  obtain ⟨own, calls, rfl, hown, hcalls⟩ := hleaves.split
  have hlink : (g.link externals ⟨id, code, a⟩).edits = own ++ calls := hedits
  rw [hlink]
  refine ⟨fun e he => (between_lined hlined hown hcalls e he).old, apart_lined hlined (fun item hitem => ?_) hown hcalls⟩
  rw [hitems]
  exact List.mem_append_right _ hitem

/-- The edits of a script lie apart from each other, and all of them are made. So do those that link a module, but for
calls that import inside the arguments of other ones: no other edit is left out. -/
theorem edits_kept :
    (∀ (code : String) (options : Transpile.Options) (out : String), withLookups code options = .ok out →
      ∃ script, parse .plainModule code = some script ∧
        (∀ e ∈ scriptLookups options code script.tree, ∃ old, e.Replaces code.toList old) ∧
        (scriptLookups options code script.tree).Pairwise Apart ∧
        ∃ made : List Edit, made.Perm (scriptLookups options code script.tree) ∧ Makes 0 made code.toList out.toList) ∧
    ∀ (code id : String) (a : Analysis), analyze code id = .ok a →
      ∀ (g : ModuleGraph) (externals : List String) (es : List Edit), (g.link externals ⟨id, code, a⟩).edits = es →
        (∀ e ∈ es, ∃ old, e.Replaces code.toList old) ∧ es.Pairwise (ApartOrCalls a.items) ∧
        ∃ made : List Edit, made.Perm (es.filter (isOutermost es)) ∧
          Makes 0 made code.toList (apply code es).toList ∧
          ∀ e ∈ es, e ∈ made ∨ ∃ d ∈ es, IsCallEdit a.items e ∧ IsCallEdit a.items d ∧ Inside e d := by
  refine ⟨fun code options out hout => ?_, ?_⟩
  · obtain ⟨script, hscript⟩ := Transpile.exists_parse_of_withLookups hout
    have hold := Transpile.replaces_scriptLookups hscript options
    have hapart := Transpile.apart_scriptLookups hscript options
    obtain ⟨made, hperm, hmade⟩ := makes_apply hold hapart
    obtain rfl := Except.ok.inj ((Transpile.withLookups_of_parse hscript options).symm.trans hout)
    exact ⟨script, hscript, hold, hapart, made, hperm, hmade⟩
  · rintro code id a hanalyzed g externals es rfl
    obtain ⟨hold, hapart⟩ := link_edits hanalyzed g externals
    obtain ⟨made, hperm, hmade⟩ := makes_apply_outermost hold (hapart.imp ApartOrCalls.nested)
    refine ⟨hold, hapart, made, hperm, hmade, fun e he => ?_⟩
    cases houter : isOutermost (g.link externals ⟨id, code, a⟩).edits e with
    | true => exact .inl (hperm.mem_iff.2 (List.mem_filter.2 ⟨he, houter⟩))
    | false => exact .inr (exists_outer hapart he houter)

/-- A call that imports inside the arguments of another one. -/
def callInCall : Module :=
  ⟨"index.js", "import(\x22./a.js\x22, import(\x22./b.js\x22));", {
    imports := [⟨"./a.js", true, []⟩, ⟨"./b.js", true, []⟩]
    items := [⟨⟨0, 34⟩, .dynamicImport "./a.js"⟩, ⟨⟨17, 33⟩, .dynamicImport "./b.js"⟩] }⟩

def callInCallGraph : ModuleGraph where
  modules := [callInCall, ⟨"a.js", "", {}⟩, ⟨"b.js", "", {}⟩]
  edges := [⟨"index.js", "./a.js", "a.js", true⟩, ⟨"index.js", "./b.js", "b.js", true⟩]

/-- Both names of `f(x);` are looked up. Of two calls that import the inner one is left out. -/
theorem edits_kept_nested :
    (∃ out made, withLookups "f(x);" { scope := some "s" } = .ok out ∧ made.length = 2 ∧
      Makes 0 made "f(x);".toList out.toList) ∧
    (callInCallGraph.link [] callInCall).edits.map editSpan = [⟨0, 34⟩, ⟨17, 33⟩] ∧
    ∃ made, made.map editSpan = [⟨0, 34⟩] ∧ Makes 0 made callInCall.source.toList
      (apply callInCall.source (callInCallGraph.link [] callInCall).edits).toList := by
  obtain ⟨hscripts, hmodules⟩ := edits_kept
  have hspans : (callInCallGraph.link [] callInCall).edits.map editSpan = [⟨0, 34⟩, ⟨17, 33⟩] := by decide +kernel
  refine ⟨?_, hspans, ?_⟩
  · have hedits : (parse .plainModule "f(x);").map (fun s => (scriptLookups { scope := some "s" } "f(x);" s.tree).length) =
        some 2 := by decide +kernel
    obtain ⟨script, hscript, hlength⟩ := Option.map_eq_some_iff.1 hedits
    have hout := Transpile.withLookups_of_parse hscript { scope := some "s" }
    obtain ⟨script', hscript', -, -, made, hperm, hmade⟩ := hscripts _ _ _ hout
    obtain rfl := Option.some.inj (hscript.symm.trans hscript')
    exact ⟨_, made, hout, hperm.length_eq.trans hlength, hmade⟩
  · have hanalyzed : (analyze callInCall.source "index.js").toOption = some callInCall.analysis := by decide +kernel
    have houter : ((callInCallGraph.link [] callInCall).edits.filter
        (isOutermost (callInCallGraph.link [] callInCall).edits)).map editSpan = [⟨0, 34⟩] := by decide +kernel
    obtain ⟨-, -, made, hperm, hmade, -⟩ :=
      hmodules _ _ _ (eq_ok_of_toOption hanalyzed) callInCallGraph [] _ rfl
    have hsame := hperm.map editSpan
    refine ⟨made, List.perm_singleton.1 ?_, hmade⟩
    rwa [← houter]

end LiveNotes.Bundle
