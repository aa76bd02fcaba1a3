import ByteJump.Proofs.Emit.Copies
import ByteJump.Proofs.RawWords

set_option autoImplicit false

/-!
# Labels of files that are placed more than once

All copies of a file share its labels, and words that refer to labels are written when all code is
laid down.  So each use of a label of the file means the label in the last copy, whichever copy the
use stands in.

A label is used in two ways.  An expression may be the label, and then its code holds the address of
the label in a word behind a jump: that word is among those that are written last, since every use in
an expression that is emitted defers its word.  And a raw word may mention the label: then the word is
computed when all code is there, so it is worth what the final addresses say.
-/

namespace ByteJump

namespace Emit

open Assembly Memory

/-- All uses of a label are worth an address: wherever an expression that is emitted is the label, the
word in its code holds the address in the image, and constants are computed with it in the end. -/
structure ResolvesTo (log : List Event) (t : State) (image : Image) (l : Label) (address : Nat) :
    Prop where
  uses : ∀ use info s, Occurs log (.label use info) s → use.target = some l →
    image.word? (s.position + instructionSize) = some (address % addressSpace)
  constants : ∀ use site, use.target = some l → t.env.label use site = .ok (BitVec.ofNat 128 address)

/-- Expressions in one copy of a file that are labels of the file mean the labels of that copy. -/
def Copy.SelfContained {log : List Event} {q : Program} (c : Copy log q) (image : Image) : Prop :=
  ∀ l ∈ q.ownLabels, ∀ e ∈ c.inner, e.Places l →
    ∀ use info s, Occurs c.inner (.label use info) s → use.target = some l →
      image.word? (s.position + instructionSize) = some (e.state.position % addressSpace)

section Emission

variable {G : Program → Prop} {turn : Nat} {p q : Program} {b : Bindings} {log : List Event}
  {t : State} {artifact : Artifact}

/-- The word of a label in an expression that is emitted is written last. -/
theorem Emission.reserved_use (h : Emission p b log t artifact) {use : LabelUse} {info : Info}
    {s : State} {l : Label} (hoccurs : Occurs log (.label use info) s) (hl : use.target = some l) :
    ⟨s.position + instructionSize, .address (.label l) (some info.site)⟩ ∈ t.reserved := by
  obtain ⟨e, he, around, st, y, u, hmoment, hasks, hpart⟩ := hoccurs
  exact (h.wordsReserved _).mpr ⟨e, he, around, st, hmoment, .label hasks hpart hl⟩

theorem Emission.resolvesTo (h : Emission p b log t artifact) {l : Label} {address : Nat}
    (haddress : t.bindings.address? l = some address) :
    ResolvesTo log t artifact.image l address := by
  refine ⟨fun use info s hoccurs hl => ?_, fun use site hl => ?_⟩
  · obtain ⟨n, hmeans, hholds⟩ := h.wordsWritten.value _ (h.reserved_use hoccurs hl)
    have hn : t.bindings.address? l = some n := hmeans
    cases haddress.symm.trans hn
    exact hholds
  · simp [State.env, Constant.ofTarget, hl, State.address, haddress, Except.map]

/-- A label of a file has the address at which it is placed in the last copy of the file. -/
theorem Emission.address_copy (hG : Library G) (hrooted : Rooted G (.main turn) p)
    (h : Emission p b log t artifact) (c : Copy log q) (hlater : ∀ e ∈ c.later, ¬ e.Touches q)
    {l : Label} (hl : l ∈ q.ownLabels) :
    ∃ e ∈ c.inner, e.Places l ∧ (∀ x ∈ c.inner, x.Places l → x = e) ∧
      t.bindings.address? l = some e.state.position := by
  have henters : Enters log q := ⟨c.first, by simp [c.log_eq], c.enters⟩
  have hq := (h.trace.enters_below hG hrooted.hosts q henters).1
  have hlabels := hl
  rw [Program.ownLabels, Stmt.listLabels_eq] at hlabels
  obtain ⟨st, hst, hlabel⟩ := List.mem_flatMap.mp hlabels
  obtain ⟨x, hx, scope, hmoment⟩ := c.trace.starts st (by rwa [flatMap_subs_map])
  obtain ⟨e, before, behind, hinner, he, hbehind⟩ :=
    exists_last (P := fun e => e.Places l) ⟨x, hx, scope, st, hmoment, hlabel⟩
  have hmem : e ∈ c.inner := by simp [hinner]
  refine ⟨e, hmem, he, fun y hy hplaces => ?_, h.address_last hG hrooted (Or.inr henters) hl
    ⟨c.before ++ c.first :: before, behind ++ ⟨.leaves q, c.first.depth, c.last⟩ :: c.later, ?_, he,
      ?_⟩⟩
  · exact (hG.rooted hq).places_once hG c.trace hl hy hmem hplaces he
  · refine c.log_eq.trans ?_
    simp [hinner]
  · refine List.forall_mem_append.mpr ⟨hbehind, List.forall_mem_cons.mpr ⟨?_, fun y hy hplaces => ?_⟩⟩
    · rintro ⟨scope, st, hmoment, -⟩
      cases hmoment
    · exact hlater y hy (Or.inr ⟨l, hl, hplaces⟩)

end Emission

end Emit

namespace Session

open Assembly Emit Memory

/-- An imported file that is emitted has a last copy, which is self-contained, and in which each label
of the file is placed once.  In the image every use of such a label means the label in that copy: the
words of expressions hold its address, wherever they are emitted, and all raw words are worth what the
final addresses say. -/
theorem labels_of_last_copy (source : FileSource) (dirs : List Path)
    (mains : List (Syntax.Program × Path)) (tree : Syntax.Program) (file : Path) (b : Bindings)
    {p : Program} {artifact : Artifact}
    (hresolve : ((afterMains source dirs mains).resolve tree file).1 = .ok p)
    (hgenerate : (p.generate b).1 = .ok artifact) :
    ∃ log t, Emission p b log t artifact ∧
      (∀ e ∈ log, ∀ around st values, e.moment = .starts around st → st.action = .words values →
        ∃ u, ⟨.ends st, e.depth, u⟩ ∈ log ∧
          RawWords artifact.image t values (e.state.labelAll st.labels) u) ∧
      ∀ q, Enters log q → ∃ c : Copy log q, ¬ Enters c.later q ∧ c.SelfContained artifact.image ∧
        ∀ l ∈ q.ownLabels, ∃ e ∈ c.inner, e.Places l ∧ (∀ x ∈ c.inner, x.Places l → x = e) ∧
          ResolvesTo log t artifact.image l e.state.position := by
  obtain ⟨G, turn, hG, hrooted⟩ := rooted_of_resolve hresolve
  obtain ⟨log, t, h⟩ := emission_of_generate hgenerate
  refine ⟨log, t, h, fun e he around st values hmoment hwords => h.lays_rawWords he hmoment hwords,
    fun q henters => ?_⟩
  obtain ⟨c, hlater⟩ := h.lastCopy hG hrooted henters
  have hplaced : ∀ l ∈ q.ownLabels, ∃ e ∈ c.inner, e.Places l ∧
      (∀ x ∈ c.inner, x.Places l → x = e) ∧
      ResolvesTo log t artifact.image l e.state.position := by
    intro l hl
    obtain ⟨e, he, hplaces, honly, haddress⟩ := h.address_copy hG hrooted c hlater hl
    exact ⟨e, he, hplaces, honly, h.resolvesTo haddress⟩
  refine ⟨c, fun ⟨x, hx, hmoment⟩ => hlater x hx (Or.inl hmoment), ?_, hplaced⟩
  intro l hl e he hplaces use info s hoccurs htarget
  obtain ⟨e', -, -, honly, hresolves⟩ := hplaced l hl
  obtain rfl := honly e he hplaces
  exact hresolves.uses use info s (hoccurs.mono c.inner_subset) htarget

/-- A file with a label, which an expression and a raw word use, placed twice. -/
theorem labels_of_last_copy_twice :
    let library : Syntax.Program :=
      [.mk [] (.pragma ⟨"multi", .zero⟩ none) .zero,
        .mk [⟨".here", false, .zero⟩] (.define ⟨"x", .zero⟩ (.label ".here" .zero)) .zero,
        .mk [] (.words [.label ".here" .zero]) .zero]
    let again : Syntax.Stmt := .mk [] (.importFile ⟨"lib", .zero⟩) .zero
    let files : MemoryFiles := [(⟨"src/lib"⟩, library)]
    ∃ p artifact,
      ((afterMains files.source [⟨"src"⟩] []).resolve [again, again] ⟨"main"⟩).1 = .ok p ∧
      (p.generate .none).1 = .ok artifact ∧ ∃ log t, Emission p .none log t artifact ∧
        (∀ e ∈ log, ∀ around st values, e.moment = .starts around st → st.action = .words values →
          ∃ u, ⟨.ends st, e.depth, u⟩ ∈ log ∧
            RawWords artifact.image t values (e.state.labelAll st.labels) u) ∧
        ∀ q, Enters log q → ∃ c : Copy log q, ¬ Enters c.later q ∧ c.SelfContained artifact.image ∧
          ∀ l ∈ q.ownLabels, ∃ e ∈ c.inner, e.Places l ∧ (∀ x ∈ c.inner, x.Places l → x = e) ∧
            ResolvesTo log t artifact.image l e.state.position := by
  intro library again files
  have haccepted : accepted ((afterMains files.source [⟨"src"⟩] []).resolve [again, again]
      ⟨"main"⟩).1 .none = true := by decide +kernel
  obtain ⟨p, artifact, hresolve, hgenerate⟩ := exists_of_accepted haccepted
  exact ⟨p, artifact, hresolve, hgenerate, labels_of_last_copy files.source [⟨"src"⟩] []
    [again, again] ⟨"main"⟩ .none hresolve hgenerate⟩

/-- The program places a file twice, each time from its first statement on, which uses its own label;
in the end the label stands at address 132153, and the program is accepted. -/
def firstCopyLeaves : Except Fault Program → Bool
  | .ok (.mk path [.mk [] (.place (.mk path' [.mk [l] (.define v (.label use info)) site₀] exports'
      pragmas')) site₁, other] exports pragmas) =>
      match stmts [.mk [] (.place (.mk path' [.mk [l] (.define v (.label use info)) site₀] exports'
          pragmas')) site₁, other] (.start .none), use.target with
      | .ok _ t, some l' =>
          pragmas' == (⟨1, true⟩ : Pragmas) && t.bindings.address? l == some 132153 &&
            l'.id == l.id && l'.name == l.name && l'.exported == l.exported &&
            l'.site.span == l.site.span && l'.site.file.text == l.site.file.text &&
            (Program.generate (.mk path [.mk [] (.place (.mk path' [.mk [l]
              (.define v (.label use info)) site₀] exports' pragmas')) site₁, other] exports
                pragmas) .none).1.isOk
      | _, _ => false
  | _ => false

/-- The first of two copies is not self-contained: it uses the label in the second one. -/
theorem labels_of_last_copy_first :
    let library : Syntax.Program :=
      [.mk [] (.pragma ⟨"multi", .zero⟩ none) .zero,
        .mk [⟨".here", false, .zero⟩] (.define ⟨"x", .zero⟩ (.label ".here" .zero)) .zero]
    let again : Syntax.Stmt := .mk [] (.importFile ⟨"lib", .zero⟩) .zero
    let files : MemoryFiles := [(⟨"src/lib"⟩, library)]
    ∃ p artifact log t q, ∃ c c' : Copy log q,
      ((afterMains files.source [⟨"src"⟩] []).resolve [again, again] ⟨"main"⟩).1 = .ok p ∧
      Emission p .none log t artifact ∧ q.pragmas.multi = true ∧
      c.start.position < c'.start.position ∧ ¬ c.SelfContained artifact.image := by
  intro library again files
  have hcheck : firstCopyLeaves ((afterMains files.source [⟨"src"⟩] []).resolve [again, again]
      ⟨"main"⟩).1 = true := by decide +kernel
  unfold firstCopyLeaves at hcheck
  split at hcheck
  case h_2 => cases hcheck
  rename_i path path' l v use info site₀ exports' pragmas' site₁ other exports pragmas hresolve
  split at hcheck
  case h_2 => cases hcheck
  rename_i t l' hrun htarget
  simp only [Bool.and_eq_true, beq_iff_eq] at hcheck
  obtain ⟨⟨⟨⟨⟨⟨⟨hpragmas, haddress⟩, hid⟩, hname⟩, hexported⟩, hspan⟩, hfile⟩, hok⟩ := hcheck
  subst hpragmas
  obtain rfl : l' = l := by
    obtain ⟨_, _, _, ⟨⟨_⟩, _⟩⟩ := l
    obtain ⟨_, _, _, ⟨⟨_⟩, _⟩⟩ := l'
    dsimp only at hid hname hexported hspan hfile
    rw [hid, hname, hexported, hspan, hfile]
  obtain ⟨artifact, hgenerate⟩ := exists_of_isOk hok
  obtain ⟨G, turn, hG, hrooted⟩ := rooted_of_resolve hresolve
  obtain ⟨log, t', h⟩ := emission_of_generate hgenerate
  obtain rfl : t' = t := by
    have hend := h.trace.run
    rw [emitAll_map_stmt, Program.statements, hrun] at hend
    cases hend
    rfl
  have hl : l' ∈ Program.ownLabels (.mk path' [.mk [l'] (.define v (.label use info)) site₀]
      exports' ⟨1, true⟩) :=
    mem_ownLabels (List.mem_cons_self (a := Stmt.mk [l'] _ site₀)) List.mem_cons_self
  -- each copy starts with the statement that places the label and uses it
  have hstarts := fun c : Copy log (.mk path' [.mk [l'] (.define v (.label use info)) site₀] exports'
    ⟨1, true⟩) => c.starts_first rfl
  have hplaces : ∀ depth s, Event.Places
      ⟨.starts [] (.mk [l'] (.define v (.label use info)) site₀), depth, s⟩ l' :=
    fun depth s => ⟨[], _, rfl, List.mem_cons_self⟩
  have hoccurs : ∀ {events : List Event} {depth : Nat} {s : State},
      ⟨.starts [] (.mk [l'] (.define v (.label use info)) site₀), depth, s⟩ ∈ events →
        Occurs events (.label use info) (s.labelAll [l']) :=
    fun hmem => ⟨_, hmem, [], _, _, _, rfl, .define, .whole⟩
  obtain ⟨c, halign⟩ := h.trace.copy
    (q := .mk path' [.mk [l'] (.define v (.label use info)) site₀] exports' ⟨1, true⟩) rfl
  have hstart : c.start = .start .none := by
    have hnone : alignTo 1 (.start .none) = .ok ⟨⟩ (.start .none) := rfl
    exact ((EStateM.Result.ok.inj (hnone.symm.trans halign)).2).symm
  obtain ⟨c', hlater⟩ := h.lastCopy hG hrooted ⟨c.first, by simp [c.log_eq], c.enters⟩
  obtain ⟨e, -, -, honly, hlast⟩ := h.address_copy hG hrooted c' hlater hl
  have hend : c'.start.position = 132153 := by
    obtain rfl := honly _ (hstarts c') (hplaces _ _)
    exact Option.some.inj (hlast.symm.trans haddress)
  refine ⟨_, artifact, log, t', _, c, c', hresolve, h, rfl, ?_, fun hself => ?_⟩
  · rw [hstart, hend]
    decide
  · have hheld := (h.resolvesTo haddress).uses use info _
      (hoccurs (c.inner_subset (hstarts c))) htarget
    have hwrong := hself l' hl _ (hstarts c) (hplaces _ _) use info _ (hoccurs (hstarts c)) htarget
    rw [hheld, hstart] at hwrong
    have hwrong : some (132153 % addressSpace) = some (codeStart % addressSpace) := hwrong
    exact absurd hwrong (by decide)

end Session

end ByteJump
