import WriteOnce.Proofs.MovedReports

/-!
# Layouts of a source

Two sources with the same tokens, in which the same `>` touch what follows them, differ in
their layout only. Both are parsed or both are not, and the reports on them agree in
everything but places and owners.
-/

namespace WriteOnce

open WriteOnce.Parser

variable {φ : Pos → Pos} {s s' : TokenStream} {source source' : List Char} {p p' : Program}

/-! ## Places of tokens -/

/-- What a token is, wherever it stands. -/
def Token.content (t : Token) : Token.Kind × Text := (t.kind, t.text)

theorem Token.eq_of_content {t u : Token} (hcontent : u.content = t.content)
    (hpos : φ t.pos = u.pos) : u = t.move φ := by
  obtain ⟨hkind, htext⟩ := Prod.mk.inj hcontent
  obtain ⟨kind, text, pos⟩ := u
  rw [Token.move, Token.mk.injEq]
  exact ⟨hkind, htext, hpos.symm⟩

theorem map_move_of_content {ts us : List Token}
    (hcontent : us.map Token.content = ts.map Token.content)
    (hpos : (ts.map Token.pos).map φ = us.map Token.pos) : us = ts.map (Token.move φ) := by
  induction ts generalizing us with
  | nil => exact List.map_eq_nil_iff.1 hcontent
  | cons t ts ih =>
    cases us with
    | nil => cases hcontent
    | cons u us =>
      obtain ⟨hu, hus⟩ := List.cons_eq_cons.1 hcontent
      obtain ⟨hpu, hpus⟩ := List.cons_eq_cons.1 hpos
      rw [List.map_cons, Token.eq_of_content hu hpu, ih hus hpus]

/-- Tokens of the same content are those of the other source, moved by a permutation of places. -/
theorem exists_move (h : tokenize source = .ok s) (h' : tokenize source' = .ok s')
    (hsame : s'.ahead.map Token.content = s.ahead.map Token.content) :
    ∃ σ : Equiv.Perm Pos, s' = s.move σ := by
  have hends : ∀ s : TokenStream, s.allPlaces = s.ahead.map Token.pos ++ [s.stop] := fun s => by
    simp [TokenStream.allPlaces, TokenStream.toList, Token.endAt]
  have hnodup : s.allPlaces.Nodup := hends s ▸ (inOrder_tokenize h).nodup
  have hnodup' : s'.allPlaces.Nodup := hends s' ▸ (inOrder_tokenize h').nodup
  have hlength : s'.ahead.length = s.ahead.length := by
    simpa using congrArg List.length hsame
  obtain ⟨σ, hσ⟩ := exists_perm_map_eq hnodup hnodup' (by simp [hends, hlength])
  rw [hends, hends, List.map_append] at hσ
  obtain ⟨hplaces, hstop⟩ := List.append_inj' hσ rfl
  obtain ⟨ahead, stop⟩ := s'
  refine ⟨σ, ?_⟩
  rw [TokenStream.move, TokenStream.mk.injEq]
  exact ⟨map_move_of_content hsame hplaces, (List.singleton_inj.1 hstop).symm⟩

/-- Places that follow each other, before and after they are moved, keep their order. -/
theorem past_iff_of_pairwise {ps : List Pos} (h : ps.Pairwise (Pos.Past 1))
    (h' : (ps.map φ).Pairwise (Pos.Past 1)) :
    ∀ a ∈ ps, ∀ b ∈ ps, Pos.Past 0 (φ a) (φ b) ↔ Pos.Past 0 a b := by
  have hnot : ∀ {a b : Pos}, Pos.Past 1 a b → ¬ Pos.Past 0 b a := fun hab hba =>
    (hab.trans hba).ne rfl
  induction ps with
  | nil => exact fun a ha => nomatch ha
  | cons q ps ih =>
    rw [List.map_cons] at h'
    obtain ⟨hq, hps⟩ := List.pairwise_cons.1 h
    obtain ⟨hq', hps'⟩ := List.pairwise_cons.1 h'
    intro a ha b hb
    rw [List.mem_cons] at ha hb
    rcases ha with rfl | ha
    · rcases hb with rfl | hb
      · exact iff_of_true (.refl _) (.refl _)
      · exact iff_of_true ((hq' _ (List.mem_map_of_mem hb)).mono (Nat.zero_le 1))
          ((hq b hb).mono (Nat.zero_le 1))
    · rcases hb with rfl | hb
      · exact iff_of_false (hnot (hq' _ (List.mem_map_of_mem ha))) (hnot (hq a ha))
      · exact ih hps hps' a ha b hb

/-- Nothing touches the text of a quoted literal. -/
theorem InOrder.not_adjacent {stop pos : Pos} {ts before after : List Token} {t u : Token}
    (h : InOrder stop pos ts) (hts : ts = before ++ t :: u :: after) (hquoted : t.isQuoted = true)
    (htext : t.text = ">") : Lookahead.adjacent t u = false := by
  have hpast := h.past_next hts
  have hlength : t.text.codes.length = 1 := by
    rw [htext]
    rfl
  rw [Token.width, if_pos hquoted] at hpast
  unfold Pos.Past at hpast
  simp only [Lookahead.adjacent, hlength, Bool.and_eq_false_iff, decide_eq_false_iff_not]
  omega

/-- The same `>` touch what follows them. -/
def SameArrows (ts us : List Token) : Prop :=
  ∀ (i : Nat) (t t' u u' : Token), ts[i]? = some t → ts[i + 1]? = some t' → us[i]? = some u →
    us[i + 1]? = some u' → t.isQuoted = false → t.text = ">" →
      Lookahead.adjacent u u' = Lookahead.adjacent t t'

instance (ts us : List Token) : Decidable (SameArrows ts us) :=
  decidable_of_iff (∀ i < ts.length, ∀ t ∈ ts[i]?, ∀ t' ∈ ts[i + 1]?, ∀ u ∈ us[i]?,
      ∀ u' ∈ us[i + 1]?, t.isQuoted = false → t.text = ">" →
        Lookahead.adjacent u u' = Lookahead.adjacent t t')
    ⟨fun h i t t' u u' ht ht' hu hu' =>
      h i (List.getElem?_eq_some_iff.1 ht).1 t ht t' ht' u hu u' hu',
    fun h i _ t ht t' ht' u hu u' hu' => h i t t' u u' ht ht' hu hu'⟩

theorem SameArrows.keepsArrows {ts : List Token} {stop stop' pos pos' : Pos}
    (h : SameArrows ts (ts.map (Token.move φ))) (hts : InOrder stop pos ts)
    (hus : InOrder stop' pos' (ts.map (Token.move φ))) : Lookahead.KeepsArrows φ ts := by
  rintro before t u after rfl htext
  by_cases hquoted : t.isQuoted = true
  · rw [hts.not_adjacent rfl hquoted htext]
    have hmoved : (before ++ t :: u :: after).map (Token.move φ) =
        before.map (Token.move φ) ++ t.move φ :: u.move φ :: after.map (Token.move φ) := by simp
    exact hus.not_adjacent hmoved hquoted htext
  · apply h before.length t u (t.move φ) (u.move φ) <;> simp [hquoted, htext]

/-! ## Places of a program -/

/-- No place occurs in the tree of what was parsed but those of tokens: a parser that reads the
same tree wherever the tokens stand cannot know of others. -/
theorem SteadyParser.move_eq {α : Type} {view : α → Tree} {p : Grammar → Parser α}
    (hp : SteadyParser view p) {a : α} {depth : Nat} (htokens : tokenize source = .ok s)
    (h : parseWith p depth source = .ok a) (hφ : ∀ q ∈ s.allPlaces, φ q = q) :
    (view a).move φ = view a := by
  have hmove : s.move φ = s := by
    obtain ⟨ahead, stop⟩ := s
    have hahead : ahead.map (Token.move φ) = ahead := by
      refine (List.map_congr_left fun t ht => ?_).trans (List.map_id ahead)
      rw [Token.move, hφ t.pos (List.mem_map_of_mem (List.mem_append_left _ ht))]
      rfl
    have hstop : φ stop = stop :=
      hφ stop (List.mem_map_of_mem (List.mem_append_right ahead (.head _)))
    rw [TokenStream.move, hahead, hstop]
  have hsame : SameArrows s.ahead (s.ahead.map (Token.move φ)) := by
    rw [← TokenStream.ahead_move, hmove]
    rintro i t t' u u' ht ht' hu hu' - -
    rw [ht] at hu
    rw [ht'] at hu'
    cases hu
    cases hu'
    rfl
  have horder := inOrder_tokenize htokens
  have horder' : InOrder s.stop Pos.start (s.ahead.map (Token.move φ)) := by
    rw [← TokenStream.ahead_move, hmove]
    exact horder
  obtain ⟨b, c, hb, hc, htree⟩ | ⟨fault, pos, herror, -⟩ :=
    hp.parallel depth htokens (hmove ▸ htokens) (hsame.keepsArrows horder horder')
  · rw [h] at hb hc
    cases hb
    cases hc
    exact htree.symm
  · rw [h] at herror
    cases herror

namespace Program

/-- The members whose analysis fails. -/
def failing (p : Program) : List OwnedMember := p.ownedMembers.filter OwnedMember.fails

theorem failed_report (p : Program) (options : Option Options) :
    (p.report options).failed = p.failing.map OwnedMember.owner := rfl

theorem pos_core (φ : Pos → Pos) (m : Member) : (m.core φ).pos = φ m.pos := by
  cases m with
  | classDecl decl => cases decl; rfl
  | _ => rfl

/-- The members of a program and of one that has the same core elsewhere stand at such places. -/
theorem pos_ownedMembers (hcore : p'.core id = p.core φ) :
    List.Forall₂ (fun m m' => m'.member.pos = φ m.member.pos) p.ownedMembers p'.ownedMembers := by
  have hmoved := moved_ownedMembers (labelling_true φ) (fun _ => trivial) p
  have hstill := moved_ownedMembers (labelling_true id) (fun _ => trivial) p'
  rw [hcore] at hstill
  refine forall₂_comp hmoved hstill.flip fun m n m' hm hm' => ?_
  rw [← pos_core φ, ← hm.member, hm'.member, pos_core]
  rfl

/-- Members stand where tokens stand. -/
theorem pos_mem_allPlaces (htokens : tokenize source = .ok s) {depth : Nat}
    (h : Program.parse source depth = .ok p) {m : OwnedMember} (hm : m ∈ p.ownedMembers) :
    m.member.pos ∈ s.allPlaces := by
  -- A function that moves all other places leaves the program as it is.
  let away : Pos → Pos := fun q => if q ∈ s.allPlaces then q else q.right 1
  have haway : ∀ q ∈ s.allPlaces, away q = q := fun q hq => if_pos hq
  have hcore : p.core id = p.core away :=
    core_eq (steady_program.move_eq htokens h haway).symm
  have hpos : ∀ m ∈ p.ownedMembers, m.member.pos = away m.member.pos := by
    have hall := pos_ownedMembers hcore
    rw [List.forall₂_same] at hall
    exact hall
  by_contra hnot
  have hmoved := hpos m hm
  rw [show away m.member.pos = m.member.pos.right 1 from if_neg hnot] at hmoved
  have hcol := congrArg Pos.col hmoved
  simp only [Pos.right] at hcol
  omega

end Program

/-! ## Reports -/

/-- An entry of a report, without the place and the owner of its variable. -/
def Verdicts.described (e : Declaration × Verdict) : Text × Variable.Kind × Bool × Bool × Verdict :=
  (e.1.var.name, e.1.var.kind, e.1.var.isFinal, e.1.var.multi, e.2)

theorem Verdicts.Moves.described_eq {μ : Motion} {known : Variable → Prop} {vs vs' : Verdicts}
    (h : vs.Moves μ known vs') (hμ : μ.Keeps known)
    (hname : ∀ v, known v → (μ.var v).name = v.name) :
    vs'.map described = vs.map described := by
  obtain ⟨rfl, hknown⟩ := h
  rw [Verdicts.move, List.map_map]
  refine List.map_congr_left fun e he => ?_
  have hv := hknown e he
  simp only [Function.comp, described, Declaration.move, hname _ hv, hμ.kind _ hv, hμ.isFinal _ hv,
    hμ.multi _ hv]

/-- On sources that differ in layout only, both parses fail at the same token, or both succeed, the
members that fail begin at the same tokens, and the reports list the same verdicts. This holds
however deeply a source may nest. -/
theorem Analysis.layouts_alike (htokens : tokenize source = .ok s)
    (htokens' : tokenize source' = .ok s')
    (hsame : s'.ahead.map Token.content = s.ahead.map Token.content)
    (harrows : SameArrows s.ahead s'.ahead) (options : Options) (depth : Nat) :
    (∃ p p' r r', Program.parse source depth = .ok p ∧ Program.parse source' depth = .ok p' ∧
      ((Analysis.program p (some options)).run (.fresh none)).1 = .ok r ∧
      ((Analysis.program p' (some options)).run (.fresh none)).1 = .ok r' ∧
      r.failed = p.failing.map OwnedMember.owner ∧ r'.failed = p'.failing.map OwnedMember.owner ∧
      List.Forall₂ (fun m m' => ∃ i : Nat, s.allPlaces[i]? = some m.member.pos ∧
        s'.allPlaces[i]? = some m'.member.pos) p.failing p'.failing ∧
      r'.verdicts.map Verdicts.described = r.verdicts.map Verdicts.described) ∨
    ∃ (fault : ParseFault) (pos pos' : Pos) (i : Nat),
      Program.parse source depth = .error (.grammar ⟨fault, pos⟩) ∧
      Program.parse source' depth = .error (.grammar ⟨fault, pos'⟩) ∧
      s.allPlaces[i]? = some pos ∧ s'.allPlaces[i]? = some pos' := by
  obtain ⟨σ, rfl⟩ := exists_move htokens htokens' hsame
  have hplaces : (s.move σ).allPlaces = s.allPlaces.map σ := by
    simp [TokenStream.allPlaces, TokenStream.toList_move]
  have hindex : ∀ pos ∈ s.allPlaces, ∃ i : Nat, s.allPlaces[i]? = some pos ∧
      (s.move σ).allPlaces[i]? = some (σ pos) := by
    intro pos hpos
    obtain ⟨i, hi⟩ := List.mem_iff_getElem?.1 hpos
    exact ⟨i, hi, by rw [hplaces, List.getElem?_map, hi]; rfl⟩
  have hkeeps := harrows.keepsArrows (inOrder_tokenize htokens) (inOrder_tokenize htokens')
  obtain ⟨p, p', hparse, hparse', htree⟩ | ⟨fault, pos, hparse, hparse', hpos⟩ :=
    steady_program.parallel depth htokens htokens' hkeeps
  · left
    have hcore : p'.core id = p.core σ := Program.core_eq htree
    have hmap : (s.move σ).places = s.places.map σ := by
      simp only [TokenStream.places, TokenStream.ahead_move, List.map_map]
      rfl
    have horder := past_iff_of_pairwise (Program.pairwise_places htokens)
      (hmap ▸ Program.pairwise_places htokens')
    have hplace : ∀ v ∈ p.vars, v.place ∈ s.places := fun v hv =>
      (Program.places_subperm htokens hparse).subset (List.mem_map_of_mem hv)
    obtain ⟨ρ, hρ, hname, hmembers⟩ := Program.exists_motion hcore σ.injective
      (Program.nodup_places htokens hparse) fun v hv w hw =>
        horder v.place (hplace v hv) w.place (hplace w hw)
    obtain ⟨t, hrun, -⟩ := program_plain p (some options) plain_fresh
    obtain ⟨t', hrun', -⟩ := program_plain p' (some options) plain_fresh
    refine ⟨p, p', _, _, hparse, hparse', congrArg Prod.fst hrun, congrArg Prod.fst hrun',
      p.failed_report _, p'.failed_report _, ?_,
      (Program.moves_report hρ hmembers _).described_eq hρ hname⟩
    have hfailing := List.rel_filter (p := OwnedMember.fails) (q := OwnedMember.fails)
      (fun {m m'} hm => iff_of_eq (congrArg (· = true) hm.2.2.1.fails.symm))
      (forall₂_mem (forall₂_and hmembers (Program.pos_ownedMembers hcore)))
    refine hfailing.imp fun m m' hmember => ?_
    obtain ⟨hm, -, -, hpos⟩ := hmember
    rw [hpos]
    exact hindex _ (Program.pos_mem_allPlaces htokens hparse hm)
  · right
    obtain ⟨i, hi, hi'⟩ := hindex pos hpos
    exact ⟨fault, pos, σ pos, i, hparse, hparse', hi, hi'⟩

/-- `class A { int f(int a) { return a >> 1; } void g() { break; } }` -/
def shifting : List Char :=
  "class A \x7b int f(int a) \x7b return a >> 1; \x7d void g() \x7b break; \x7d \x7d".toList

/-- The same tokens on several lines. -/
def shiftingApart : List Char :=
  ("class A\n\x7bint f(int\na)\x7breturn a\n\n   >>  1;\x7dvoid\n" ++
    "g ( ) \x7b break\n;\x7d\n\x7d").toList

/-- One member fails on both layouts, and there is a verdict on the parameter of the other. -/
theorem Analysis.layouts_alike_shifting : ∃ p p' r r', Program.parse shifting = .ok p ∧
    Program.parse shiftingApart = .ok p' ∧
    ((Analysis.program p (some .default)).run (.fresh none)).1 = .ok r ∧
    ((Analysis.program p' (some .default)).run (.fresh none)).1 = .ok r' ∧
    p.failing.length = p'.failing.length ∧
    r'.verdicts.map Verdicts.described = r.verdicts.map Verdicts.described := by
  obtain ⟨s, hs, hany⟩ := FlowGraph.exists_ok_of_any (x := tokenize shifting)
    (p := fun s => (tokenize shiftingApart).toOption.any fun s' =>
      s'.ahead.map Token.content = s.ahead.map Token.content ∧ SameArrows s.ahead s'.ahead)
    (by decide +kernel)
  obtain ⟨s', hs', hboth⟩ := FlowGraph.exists_ok_of_any hany
  obtain ⟨hsame, harrows⟩ := of_decide_eq_true hboth
  obtain ⟨p, p', r, r', hp, hp', hr, hr', -, -, hfailing, hverdicts⟩ | ⟨_, _, _, _, herror, -⟩ :=
    Analysis.layouts_alike hs hs' hsame harrows .default Grammar.depthLimit
  · exact ⟨p, p', r, r', hp, hp', hr, hr', hfailing.length_eq, hverdicts⟩
  · have hparsed : (Program.parse shifting).toBool = true := by decide +kernel
    rw [herror] at hparsed
    cases hparsed

end WriteOnce
