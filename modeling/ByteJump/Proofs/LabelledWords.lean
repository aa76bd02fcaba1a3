import ByteJump.Proofs.Emit.Copies
import ByteJump.Proofs.RawWords

set_option autoImplicit false

/-!
# Labels of raw words

A label has the address of the first byte that is laid down for its statement.  For raw words these
are the strings in them that have no address yet, and the words stand behind these.  So the label is
the address of the first word only if all strings in the words were laid down before.
-/

namespace ByteJump

namespace Emit

open Assembly Memory

/-- The statement starts at the event. -/
def Event.Begins (e : Event) (st : Stmt) : Prop := ∃ around, e.moment = .starts around st

/-- A label of raw words that are laid down at a state has the address of the next byte there.  The
words stand behind the strings that have no address at the state; if there is no such string, the
first word stands at the label. -/
structure Heads (image : Image) (t : State) (values : List Expr) (s : State) (l : Label) : Prop where
  address : t.bindings.address? l = some s.position
  words : HoldsFrom image t
    (s.position + ((s.unpooled (Expr.listStrings values)).map stubSize).sum) values
  pooled : (∀ text ∈ Expr.listStrings values, ∃ a, s.strings.lookup text = some a) →
    HoldsFrom image t s.position values

section Labels

variable {G : Program → Prop} {turn : Nat} {p q : Program} {b : Bindings} {log : List Event}
  {s t u : State} {artifact : Artifact} {e : Event} {st st' : Stmt} {values : List Expr} {l : Label}

/-- No string is laid down if all have addresses. -/
theorem State.unpooled_eq_nil {texts : List String}
    (h : ∀ text ∈ texts, ∃ a, s.strings.lookup text = some a) : s.unpooled texts = [] := by
  induction texts with
  | nil => rfl
  | cons text texts ih =>
      obtain ⟨⟨a, ha⟩, hrest⟩ := List.forall_mem_cons.mp h
      rw [unpooled_of_pooled ha, ih hrest]

/-- Raw words with a label. -/
theorem RawWords.heads (h : RawWords artifact.image t values s u)
    (haddress : t.bindings.address? l = some s.position) : Heads artifact.image t values s l := by
  have hwords : HoldsFrom artifact.image t
      (s.position + ((s.unpooled (Expr.listStrings values)).map stubSize).sum) values := h.value
  refine ⟨haddress, hwords, fun hpooled => ?_⟩
  rwa [State.unpooled_eq_nil hpooled] at hwords

/-- Two statements of a file with a label in common are the same. -/
theorem eq_of_label (hnodup : q.ownLabels.Nodup) (hst : st ∈ Stmt.listSubs q.statements)
    (hst' : st' ∈ Stmt.listSubs q.statements) (hl : l ∈ st.labels) (hl' : l ∈ st'.labels) :
    st = st' := by
  rw [Program.ownLabels, Stmt.listLabels_eq] at hnodup
  by_contra hne
  have hsymm : Std.Symm (Function.onFun List.Disjoint Stmt.labels) :=
    ⟨fun _ _ h _ hl hl' => h hl' hl⟩
  exact (List.nodup_flatMap.mp hnodup).2.forall hst hst' hne hl hl'

/-- A label of a statement has the address at which the statement started last. -/
theorem Emission.address_of_last (hG : Library G) (hrooted : Rooted G (.main turn) p)
    (h : Emission p b log t artifact) (hq : Emitted p log q) (hst : st ∈ Stmt.listSubs q.statements)
    (hl : l ∈ st.labels) (hlast : Last (fun e => e.Begins st) log e) :
    t.bindings.address? l = some e.state.position := by
  have hown := mem_ownLabels hst hl
  have hnodup : q.ownLabels.Nodup := by
    rcases hq with rfl | henters
    · exact .of_map _ hrooted.named.nodupLabels
    · exact .of_map _ (hG.named q (h.trace.enters_below hG hrooted.hosts q henters).1).nodupLabels
  refine h.address_last hG hrooted hq hown (last_congr hlast fun x hx => ⟨?_, ?_⟩)
  · exact fun ⟨around, hmoment⟩ => ⟨around, st, hmoment, hl⟩
  · rintro ⟨around, st', hmoment, hl'⟩
    obtain ⟨hst', -⟩ := h.label_eq hG hrooted hq hown ⟨x, hx, around, hmoment⟩ hl' rfl
    exact ⟨around, eq_of_label hnodup hst hst' hl hl' ▸ hmoment⟩

/-- The labels of raw words, where these are laid down last. -/
theorem Emission.heads (hG : Library G) (hrooted : Rooted G (.main turn) p)
    (h : Emission p b log t artifact) (hq : Emitted p log q) (hst : st ∈ Stmt.listSubs q.statements)
    (hwords : st.action = .words values) : ∃ e u, Last (fun e => e.Begins st) log e ∧
      ⟨.ends st, e.depth, u⟩ ∈ log ∧
      RawWords artifact.image t values (e.state.labelAll st.labels) u ∧
      ∀ l ∈ st.labels, Heads artifact.image t values (e.state.labelAll st.labels) l := by
  obtain ⟨e, hlast⟩ := exists_last (P := fun e => e.Begins st) (h.starts hq st hst)
  obtain ⟨around, hmoment⟩ := hlast.holds
  obtain ⟨u, hends, hraw⟩ := h.lays_rawWords hlast.mem hmoment hwords
  refine ⟨e, u, hlast, hends, hraw, fun l hl => hraw.heads ?_⟩
  rw [position_labelAll]
  exact h.address_of_last hG hrooted hq hst hl hlast

end Labels

end Emit

namespace Session

open Assembly Emit Memory

/-- The labels of raw words.  Each label of a statement with raw words in an accepted program has the
address at which the statement started when it was emitted last.  There stand, each behind a jump, the
strings in the words that had no address before, and right behind them the words with their values.
If all strings had addresses, the first word stands at the label. -/
theorem labels_of_raw_words (source : FileSource) (dirs : List Path)
    (mains : List (Syntax.Program × Path)) (tree : Syntax.Program) (file : Path) (b : Bindings)
    {p : Program} {artifact : Artifact}
    (hresolve : ((afterMains source dirs mains).resolve tree file).1 = .ok p)
    (hgenerate : (p.generate b).1 = .ok artifact) :
    ∃ log t, Emission p b log t artifact ∧ ∀ q, p.Includes q →
      ∀ st ∈ Stmt.listSubs q.statements, ∀ values, st.action = .words values →
        ∃ e u, Last (fun e => e.Begins st) log e ∧ ⟨.ends st, e.depth, u⟩ ∈ log ∧
          RawWords artifact.image t values (e.state.labelAll st.labels) u ∧
          ∀ l ∈ st.labels, Heads artifact.image t values (e.state.labelAll st.labels) l := by
  obtain ⟨G, turn, hG, hrooted⟩ := rooted_of_resolve hresolve
  obtain ⟨log, t, h⟩ := emission_of_generate hgenerate
  exact ⟨log, t, h, fun q hq st hst values hwords =>
    h.heads hG hrooted (h.includes hG hrooted hq) hst hwords⟩

/-- Raw words with a label, with a string that is laid down for them and with one that was laid down
before. -/
theorem labels_of_raw_words_strings :
    let text : String → Syntax.Expr := fun x => .cast (.str x .zero) (.named "n64" .zero) .zero
    let tree : Syntax.Program :=
      [.mk [] (.words [text "a"]) .zero,
        .mk [⟨"here", false, .zero⟩] (.words [.label "here" .zero, text "a", text "b"]) .zero]
    ∃ p artifact, ((afterMains (MemoryFiles.source []) [] []).resolve tree ⟨"main"⟩).1 = .ok p ∧
      (p.generate .none).1 = .ok artifact ∧ ∃ log t, Emission p .none log t artifact ∧
        ∃ st ∈ Stmt.listSubs p.statements, ∃ values, st.action = .words values ∧ values.length = 3 ∧
          ∃ e u, Last (fun e => e.Begins st) log e ∧
            RawWords artifact.image t values (e.state.labelAll st.labels) u ∧
            ∃ l ∈ st.labels, Heads artifact.image t values (e.state.labelAll st.labels) l := by
  intro text tree
  have hchecked : runnable (fun p => (Stmt.listSubs p.statements).any fun st =>
      !st.labels.isEmpty && st.hasWords fun values => values.length == 3)
      ((afterMains (MemoryFiles.source []) [] []).resolve tree ⟨"main"⟩).1 .none = true := by
    decide +kernel
  obtain ⟨p, artifact, hresolve, hgenerate, hwords, -⟩ := exists_of_runnable hchecked
  obtain ⟨log, t, h, hlabels⟩ := labels_of_raw_words (MemoryFiles.source []) [] [] tree ⟨"main"⟩ .none
    hresolve hgenerate
  obtain ⟨st, hst, hpresent⟩ := List.any_eq_true.mp hwords
  obtain ⟨hlabel, hlength⟩ := Bool.and_eq_true_iff.mp hpresent
  obtain ⟨values, haction, hthree⟩ := Stmt.exists_words hlength
  obtain ⟨l, hl⟩ := List.exists_mem_of_ne_nil st.labels (by simpa using hlabel)
  obtain ⟨e, u, hlast, -, hraw, hheads⟩ := hlabels p .refl st hst values haction
  exact ⟨p, artifact, hresolve, hgenerate, log, t, h, st, hst, values, haction,
    beq_iff_eq.mp hthree, e, u, hlast, hraw, l, hl, hheads l hl⟩

/-- The program is a single statement with raw words and a label; the label stands at the start of the
code in the end and so does a jump; the first value is not zero; and the program is accepted. -/
def labelAtJump : Except Fault Program → Bool
  | .ok (.mk path [.mk [l] (.words [value]) site] exports pragmas) =>
      match stmts [.mk [l] (.words [value]) site] (.start .none) with
      | .ok _ t =>
          match t.pieces.toList, Constant.evaluate t.env value with
          | .instruction 0 _ (.known _) :: _, .ok v =>
              t.bindings.address? l == some codeStart && v.toNat % addressSpace != 0 &&
              (Program.generate (.mk path [.mk [l] (.words [value]) site] exports pragmas)
                .none).1.isOk
          | _, _ => false
      | _ => false
  | _ => false

/-- A label of raw words that are emitted once is not the address of the first one: a string in them is
laid down in between. -/
theorem labels_of_raw_words_jump :
    let tree : Syntax.Program := [.mk [⟨"here", false, .zero⟩] (.words [.str "a" .zero]) .zero]
    ∃ p artifact log t st values l a,
      ((afterMains (MemoryFiles.source []) [] []).resolve tree ⟨"main"⟩).1 = .ok p ∧
      Emission p .none log t artifact ∧ st ∈ Stmt.listSubs p.statements ∧ st.action = .words values ∧
      l ∈ st.labels ∧ (∃ e ∈ log, e.Begins st ∧ ∀ x ∈ log, x.Begins st → x = e) ∧
      t.bindings.address? l = some a ∧ ¬ HoldsFrom artifact.image t a values := by
  intro tree
  have hcheck : labelAtJump ((afterMains (MemoryFiles.source []) [] []).resolve tree ⟨"main"⟩).1 =
      true := by decide +kernel
  unfold labelAtJump at hcheck
  split at hcheck
  case h_2 => cases hcheck
  rename_i path l value site exports pragmas hresolve
  split at hcheck
  case h_2 => cases hcheck
  rename_i _ t hrun
  split at hcheck
  case h_2 => cases hcheck
  rename_i destination next rest v hpieces hvalue
  simp only [Bool.and_eq_true, beq_iff_eq, bne_iff_ne] at hcheck
  obtain ⟨⟨haddress, hnonzero⟩, hok⟩ := hcheck
  cases hgenerate : (Program.generate (.mk path [.mk [l] (.words [value]) site] exports pragmas)
      .none).1 with
  | error fault =>
      rw [hgenerate] at hok
      cases hok
  | ok artifact =>
      obtain ⟨log, t', h⟩ := emission_of_generate hgenerate
      have hend := h.trace.run
      rw [emitAll_map_stmt, Program.statements, hrun] at hend
      cases hend
      refine ⟨_, artifact, log, t, .mk [l] (.words [value]) site, [value], l, codeStart, hresolve, h,
        List.mem_cons_self, rfl, List.mem_cons_self, ?_, haddress, fun hholds => ?_⟩
      · have htrace : Trace 0 [] [.stmt (.mk [l] (.words [value]) site)] (.start .none) log t := h.trace
        cases htrace with
        | simple _ _ hrest =>
            cases hrest
            refine ⟨_, List.mem_cons_self, ⟨_, rfl⟩, fun x hx hbegins => ?_⟩
            obtain ⟨around, hmoment⟩ := hbegins
            rcases List.mem_cons.mp hx with rfl | hx
            · rfl
            · rw [List.mem_singleton.mp hx] at hmoment
              cases hmoment
        | compound hparts _ _ => cases hparts
      · obtain ⟨v', hv', hword⟩ := hholds 0 Nat.one_pos
        obtain rfl : v' = v := Except.ok.inj (hv'.symm.trans hvalue)
        have hholds' : Holds artifact.image.bytes.toList (codeStart + size []) 0 :=
          h.holds_piece hpieces rfl
        have hzero := word?_of_holds hholds'
        have hsome : some (v'.toNat % addressSpace) = some (0 % addressSpace) :=
          hword.symm.trans hzero
        exact hnonzero (Option.some.inj hsome)

end Session

end ByteJump
