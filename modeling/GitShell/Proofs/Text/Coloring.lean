import GitShell.Chain.LineError
import GitShell.Repository.Status

/-!
# Text — Coloring

Colored text is plain text with sequences in it: without them it is the plain text again, and what
follows it is not touched (`Colors`).  What is put together from such texts is such a text.

* `LineError.colors_report`: the report of an error.
* `colors_prompt`: the prompt.
-/

namespace GitShell

/-- Without its sequences `painted` is `plain`, whatever follows. -/
def Colors (painted plain : Text) : Prop := ∀ rest, strip (painted ++ rest) = plain ++ strip rest

section
variable {p q t u : Text}

theorem Colors.strip_eq (h : Colors p t) : strip p = t := by
  have hrest := h []
  rwa [List.append_nil, strip, strip, stripFrom, List.append_nil] at hrest

/-- A text without escape characters is its own coloring. -/
theorem colors_self (h : escape ∉ t) : Colors t t := strip_append h

theorem colors_paint (hue : Hue) (h : escape ∉ t) : Colors (paint hue t) t :=
  strip_paint_append hue h

theorem colors_paintIf (color : Bool) (hue : Hue) (h : escape ∉ t) :
    Colors (paintIf color hue t) t := by
  cases color with
  | true => exact colors_paint hue h
  | false => exact colors_self h

namespace Colors

theorem append (hp : Colors p t) (hq : Colors q u) : Colors (p ++ q) (t ++ u) := by
  intro rest
  rw [List.append_assoc, hp, hq, List.append_assoc]

theorem cons {c : Char} (hc : c ≠ escape) (hp : Colors p t) : Colors (c :: p) (c :: t) :=
  (colors_self (t := [c]) (by simpa using hc.symm)).append hp

theorem ite {c : Prop} [Decidable c] (hp : c → Colors p t) (hq : ¬ c → Colors q u) :
    Colors (if c then p else q) (if c then t else u) := by
  by_cases h : c
  · rw [if_pos h, if_pos h]
    exact hp h
  · rw [if_neg h, if_neg h]
    exact hq h

end Colors

theorem colors_nil : Colors [] [] := fun _ => rfl

/-! ### Numbers -/

theorem Text.escape_not_mem_ofNat (n : Nat) : escape ∉ ofNat n := by
  intro h
  have hdigit : escape.isDigit = true := Nat.isDigit_of_mem_toDigits (by decide) (by decide) h
  exact absurd hdigit (by decide)

theorem Text.escape_not_mem_ofInt (n : Int) : escape ∉ ofInt n := by
  cases n with
  | ofNat n => exact escape_not_mem_ofNat n
  | negSucc n =>
      rw [ofInt, List.mem_cons, not_or]
      exact ⟨by decide, escape_not_mem_ofNat _⟩

/-! ### Reports -/

namespace LineError

theorem colors_bar (h : Colors p t) : Colors (bar p) (bar t) :=
  ((h.cons (c := '|') (by decide)).append (colors_self (t := ['\n']) (by decide)))

theorem escape_not_mem_carets (s : Span) : escape ∉ carets s := by
  rw [carets, List.mem_append, not_or]
  exact ⟨fun h => absurd (List.eq_of_mem_replicate h) (by decide),
    fun h => absurd (List.eq_of_mem_replicate h) (by decide)⟩

/-- **The colored report** is the plain report with sequences. -/
theorem colors_report {e : LineError} {source : Text} (hm : escape ∉ e.reason.message)
    (hs : escape ∉ source) : Colors (e.report source true) (e.report source false) := by
  have htitle : Colors (paintIf true .blue "error>".toList) (paintIf false .blue "error>".toList) :=
    colors_paintIf true .blue (by decide)
  have hspace : ' ' ≠ escape := by decide
  have hmessage := (htitle.append ((colors_self hm).cons hspace)).cons hspace
  have hsource := (colors_self hs).cons hspace
  have hcarets := (colors_self (escape_not_mem_carets e.span)).cons hspace
  exact (((colors_bar hmessage).append (colors_bar colors_nil)).append (colors_bar hsource)).append
    (colors_bar hcarets)

end LineError

/-! ### The prompt -/

theorem RepositoryStatus.colors_render {s : RepositoryStatus} (h : escape ∉ s.branch) :
    Colors (s.render true) (s.render false) := by
  have hcount : ∀ {c : Char} (n : Nat), c ≠ escape → escape ∉ c :: Text.ofNat n := fun n hc => by
    rw [List.mem_cons, not_or]
    exact ⟨hc.symm, Text.escape_not_mem_ofNat n⟩
  have hclean := colors_paintIf true .green (t := "✔".toList) (by decide)
  have hstaged := colors_paintIf true .yellowGreen (hcount (c := '●') s.staged (by decide))
  have hunstaged := colors_paintIf true .blue (hcount (c := '+') s.unstaged (by decide))
  exact (colors_paintIf true .slateBlue h).append
    ((((Colors.ite (fun _ => hclean) fun _ => colors_nil).append
      (.ite (fun _ => hstaged) fun _ => colors_nil)).append
      (.ite (fun _ => hunstaged) fun _ => colors_nil)).cons (by decide))

/-- **The colored prompt** is the plain prompt with sequences. -/
theorem colors_prompt {status : Option RepositoryStatus} (h : ∀ s ∈ status, escape ∉ s.branch)
    (exitCode : Int) : Colors (prompt status exitCode true) (prompt status exitCode false) := by
  have hname := colors_paintIf true .aqua (t := "gitline".toList) (by decide)
  have hcode : escape ∉ '[' :: Text.ofInt exitCode ++ [']'] := by
    rw [List.cons_append, List.mem_cons, List.mem_append, not_or, not_or]
    exact ⟨by decide, Text.escape_not_mem_ofInt exitCode, by decide⟩
  have hexit := Colors.ite (c := exitCode = 0) (fun _ => colors_nil)
    fun _ => colors_paintIf true .crimson hcode
  have hend := colors_self (t := "> ".toList) (by decide)
  refine ((hname.append ?_).append hexit).append hend
  cases status with
  | none => exact colors_nil
  | some s =>
      exact ((RepositoryStatus.colors_render (h s rfl)).cons (by decide)).append
        (colors_self (t := [')']) (by decide))

end

end GitShell
