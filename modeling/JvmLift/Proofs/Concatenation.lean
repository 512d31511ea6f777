import JvmLift.Proofs.CallSites
import JvmLift.Proofs.OperandStack

namespace JvmLift

open Instruction.CallSite

-- A piece of a text that is put together: written out, or the text of the argument at a place.
inductive Piece where
  | written (text : String)
  | argument (place : Nat)

namespace Piece

-- What a piece contributes when every argument has a text.
def text (texts : List String) : Piece → String
  | written text => text
  | argument place => texts.getD place ""

-- The element is the piece, wherever in the code it was made.
inductive Makes (args : List Element) : Piece → Element → Prop where
  | written {text : String} {e : Element} (h : e.shape = (Element.string text).shape) :
    Makes args (.written text) e
  | argument {place : Nat} {e arg : Element} (harg : args[place]? = some arg)
    (h : e.shape = arg.shape) : Makes args (.argument place) e

end Piece

-- The element reads as pieces that are joined from left to right. What stands on the left of a sum
-- is a text each time, so that no sum of numbers is meant.
inductive Element.Joins (args : List Element) : Element → List Piece → Prop where
  | piece {e : Element} {piece : Piece} (h : piece.Makes args e) : Joins args e [piece]
  | plus {e left right : Element} {pieces : List Piece} {piece : Piece}
    (hshape : e.shape = .binary left .plus right .string) (hleft : Joins args left pieces)
    (htext : left.ty = .string) (hright : piece.Makes args right) :
    Joins args e (pieces ++ [piece])

-- The text that a recipe describes. Each mark one stands for the text of the next argument, each
-- mark two for that of the next constant, and everything else for itself.
def fill (recipe : List Char) (texts constants : List String) : String :=
  String.join (recipe.mapIdx fun place c =>
    if c = '\x01' then texts.getD ((recipe.take place).count '\x01') ""
    else if c = '\x02' then constants.getD ((recipe.take place).count '\x02') ""
    else String.singleton c)

section Fill

variable (rest : List Char) (texts constants : List String)

theorem fill_nil : fill [] texts constants = "" := by
  simp [fill]

theorem fill_argument (text : String) :
    fill ('\x01' :: rest) (text :: texts) constants = text ++ fill rest texts constants := by
  simp [fill, String.join_cons]

theorem fill_constant (text : String) :
    fill ('\x02' :: rest) texts (text :: constants) = text ++ fill rest texts constants := by
  simp [fill, String.join_cons]

theorem fill_char {c : Char} (hone : c ≠ '\x01') (htwo : c ≠ '\x02') :
    fill (c :: rest) texts constants = String.singleton c ++ fill rest texts constants := by
  simp [fill, String.join_cons, hone, htwo]

end Fill

-- The text that a call site joins its arguments to. Without a recipe they stand one after the
-- other. A recipe has a mark one for every argument and no more marks two than there are constants.
inductive Pool.Joins (pool : Pool) (count : Nat) : List UInt16 → (List String → String) → Prop where
  | plain : Joins pool count [] String.join
  | recipe {index : UInt16} {recipe : String} {constants others : List UInt16}
    {values : List Loadable} (hrecipe : pool.loadable index = .ok (.string recipe))
    (hargs : recipe.toList.count '\x01' = count)
    (hconstants : List.Forall₂ (fun index value => pool.loadable index = .ok value) constants values)
    (hmarks : recipe.toList.count '\x02' ≤ constants.length) :
    Joins pool count (index :: (constants ++ others))
      fun texts => fill recipe.toList texts (values.map constantText)

-- Whether a call site joins nothing but one argument.
def Pool.JoinsOne (pool : Pool) (count : Nat) : List UInt16 → Prop
  | [] => count = 1
  | recipe :: _ => pool.loadable recipe = .ok (.string "\x01")

section Parts

variable {args : List Element}

theorem makes_string (text : String) : Piece.Makes args (.written text) (.string text) :=
  .written rfl

theorem makes_arguments :
    List.Forall₂ (Piece.Makes args) ((List.range args.length).map .argument) args := by
  rw [List.forall₂_iff_get]
  refine ⟨by simp, fun place hplace harg => ?_⟩
  simp only [List.get_eq_getElem, List.getElem_map, List.getElem_range]
  exact .argument (List.getElem?_eq_getElem harg) rfl

theorem exists_pieces_textPart (args : List Element) (text : List Char) :
    ∃ pieces, List.Forall₂ (Piece.Makes args) pieces (textPart text) ∧
      ∀ texts, String.join (pieces.map (·.text texts)) = String.ofList text.reverse := by
  rw [textPart]
  split
  · rename_i hnil
    exact ⟨[], .nil, fun _ => by rw [hnil]; rfl⟩
  · refine ⟨[.written (String.ofList text.reverse)], .cons (makes_string _) .nil, fun texts => ?_⟩
    simp [Piece.text, String.join_cons]

section Recipe

variable {pool : Pool} {rest text : List Char} {constants : List UInt16}

theorem recipeParts_argument (arg : Element) :
    recipeParts pool ('\x01' :: rest) text (arg :: args) constants =
      (recipeParts pool rest [] args constants).map (textPart text ++ arg :: ·) := by
  rw [recipeParts.eq_def]
  dsimp only
  rw [if_pos rfl]
  cases recipeParts pool rest [] args constants <;> rfl

theorem recipeParts_constant {index : UInt16} {value : Loadable}
    (h : pool.loadable index = .ok value) :
    recipeParts pool ('\x02' :: rest) text args (index :: constants) =
      (recipeParts pool rest [] args constants).map
        (textPart text ++ .string (constantText value) :: ·) := by
  have hne : '\x02' ≠ '\x01' := by decide
  rw [recipeParts.eq_def]
  dsimp only
  rw [if_neg hne, if_pos rfl, h]
  cases recipeParts pool rest [] args constants <;> rfl

theorem recipeParts_char {c : Char} (hone : c ≠ '\x01') (htwo : c ≠ '\x02') :
    recipeParts pool (c :: rest) text args constants =
      recipeParts pool rest (c :: text) args constants := by
  rw [recipeParts.eq_def]
  dsimp only
  rw [if_neg hone, if_neg htwo]

end Recipe

theorem textPart_eq_nil {text : List Char} (h : textPart text = []) : text = [] := by
  by_contra hne
  rw [textPart, if_neg hne] at h
  cases h

theorem recipeParts_eq_nil {pool : Pool} {recipe text : List Char} {constants : List UInt16}
    (h : recipeParts pool recipe text args constants = .ok []) : recipe = [] ∧ text = [] := by
  fun_induction recipeParts pool recipe text args constants with
  | case1 text => exact ⟨rfl, textPart_eq_nil (Except.ok.inj h)⟩
  | case2 | case4 | case5 => cases h
  | case3 | case6 =>
    obtain ⟨others, -, hparts⟩ := exists_eq_ok_of_bind h
    exact absurd hparts (by simp)
  | case7 c rest text args constants _ _ ih => cases (ih h).2

-- A recipe that gives a single part which is no text is the mark one and nothing else.
theorem recipeParts_eq_singleton {pool : Pool} {recipe text : List Char} {constants : List UInt16}
    {part : Element} (h : recipeParts pool recipe text args constants = .ok [part])
    (hty : part.ty ≠ .string) : recipe = ['\x01'] ∧ text = [] ∧ args.head? = some part := by
  fun_induction recipeParts pool recipe text args constants with
  | case1 text =>
    exfalso
    rw [textPart] at h
    split at h
    · cases h
    · cases h
      exact hty rfl
  | case2 | case4 | case5 => cases h
  | case3 rest text constants arg args =>
    obtain ⟨others, hothers, hparts⟩ := exists_eq_ok_of_bind h
    rcases List.append_eq_singleton_iff.1 hparts with ⟨htext, hlast⟩ | ⟨-, hnone⟩
    · obtain ⟨rfl, rfl⟩ := List.cons.inj hlast
      obtain ⟨rfl, -⟩ := recipeParts_eq_nil hothers
      exact ⟨rfl, textPart_eq_nil htext, rfl⟩
    · cases hnone
  | case6 =>
    exfalso
    obtain ⟨others, -, hparts⟩ := exists_eq_ok_of_bind h
    rcases List.append_eq_singleton_iff.1 hparts with ⟨-, hlast⟩ | ⟨-, hnone⟩
    · obtain ⟨rfl, -⟩ := List.cons.inj hlast
      exact hty rfl
    · cases hnone
  | case7 c rest text args constants _ _ ih => cases (ih h).2.1

-- A recipe is read to pieces that are joined to the text it describes, behind what has been read of
-- it before.
theorem exists_pieces {pool : Pool} {recipe : List Char} (text : List Char) (place : Nat)
    {constants others : List UInt16} {values : List Loadable}
    (hargs : place + recipe.count '\x01' = args.length)
    (hconstants : List.Forall₂ (fun index value => pool.loadable index = .ok value) constants values)
    (hmarks : recipe.count '\x02' ≤ constants.length) :
    ∃ parts pieces, recipeParts pool recipe text (args.drop place) (constants ++ others) =
        .ok parts ∧ List.Forall₂ (Piece.Makes args) pieces parts ∧
      ∀ texts : List String, texts.length = args.length →
        String.join (pieces.map (·.text texts)) = String.ofList text.reverse ++
          fill recipe (texts.drop place) (values.map constantText) := by
  induction recipe generalizing text place constants values with
  | nil =>
    obtain ⟨pieces, hpieces, htext⟩ := exists_pieces_textPart args text
    refine ⟨_, pieces, rfl, hpieces, fun texts _ => ?_⟩
    rw [htext, fill_nil, String.append_empty]
  | cons c rest ih =>
    obtain ⟨front, hfront, htext⟩ := exists_pieces_textPart args text
    by_cases hone : c = '\x01'
    · -- the next argument is there, and the text in front of it becomes a part
      subst hone
      rw [List.count_cons_self] at hargs
      rw [List.count_cons_of_ne (by decide)] at hmarks
      have hplace : place < args.length := by omega
      have harg : args[place]? = some args[place] := List.getElem?_eq_getElem hplace
      obtain ⟨parts, pieces, hparts, hpieces, hjoin⟩ :=
        ih [] (place + 1) (by omega) hconstants hmarks
      refine ⟨textPart text ++ args[place] :: parts, front ++ .argument place :: pieces, ?_,
        List.rel_append hfront (.cons (.argument harg rfl) hpieces), fun texts hlen => ?_⟩
      · rw [List.drop_eq_getElem_cons hplace, recipeParts_argument, hparts]
        rfl
      · have hnext : place < texts.length := by omega
        have htext' : (Piece.argument place).text texts = texts[place] := by
          rw [Piece.text, List.getD_eq_getElem?_getD, List.getElem?_eq_getElem hnext]
          rfl
        rw [List.map_append, List.map_cons, String.join_append, String.join_cons, htext,
          hjoin texts hlen, List.drop_eq_getElem_cons hnext, fill_argument, htext']
        rfl
    · by_cases htwo : c = '\x02'
      · -- the same with the next constant
        subst htwo
        rw [List.count_cons_of_ne (by decide)] at hargs
        rw [List.count_cons_self] at hmarks
        cases hconstants with
        | nil => exact absurd hmarks (Nat.not_succ_le_zero _)
        | @cons index value constants values hvalue hrest =>
          have hmarks' : rest.count '\x02' ≤ constants.length := by
            rw [List.length_cons] at hmarks
            omega
          obtain ⟨parts, pieces, hparts, hpieces, hjoin⟩ := ih [] place hargs hrest hmarks'
          refine ⟨textPart text ++ .string (constantText value) :: parts,
            front ++ .written (constantText value) :: pieces, ?_,
            List.rel_append hfront (.cons (makes_string _) hpieces), fun texts hlen => ?_⟩
          · rw [List.cons_append, recipeParts_constant hvalue, hparts]
            rfl
          · rw [List.map_append, List.map_cons, String.join_append, String.join_cons, htext,
              hjoin texts hlen, List.map_cons, fill_constant]
            rfl
      · rw [List.count_cons_of_ne hone] at hargs
        rw [List.count_cons_of_ne htwo] at hmarks
        obtain ⟨parts, pieces, hparts, hpieces, hjoin⟩ :=
          ih (c :: text) place hargs hconstants hmarks
        refine ⟨parts, pieces, ?_, hpieces, fun texts hlen => ?_⟩
        · rw [recipeParts_char hone htwo, hparts]
        · rw [hjoin texts hlen, fill_char _ _ _ hone htwo, List.reverse_cons, String.ofList_append,
            String.append_assoc]
          rfl

end Parts

namespace Element

variable {args : List Element}

-- A text and what is behind it, as one text.
def joined (left right : Element) : Element :=
  ofShape (.binary left .plus right .string)

theorem concatenation_cons_cons (first second : Element) (rest : List Element) :
    concatenation (first :: second :: rest) = (second :: rest).foldl joined
      (if first.ty = .string then first else joined (string "") first) :=
  rfl

theorem Joins.foldl_joined {left : Element} {parts : List Element} {front pieces : List Piece}
    (hleft : Joins args left front) (hty : left.ty = .string)
    (h : List.Forall₂ (Piece.Makes args) pieces parts) :
    Joins args (parts.foldl joined left) (front ++ pieces) := by
  induction h generalizing left front with
  | nil => rwa [List.append_nil]
  | @cons piece part pieces parts hpiece _ ih =>
    have hsum : Joins args (joined left part) (front ++ [piece]) := .plus rfl hleft hty hpiece
    have hrest := ih hsum rfl
    rwa [List.append_assoc] at hrest

-- Parts are joined to a sum of the same pieces, behind an empty text where there is no text to begin
-- with.
theorem exists_joins {parts : List Element} {pieces : List Piece}
    (h : List.Forall₂ (Piece.Makes args) pieces parts) :
    ∃ sum, Joins args (concatenation parts) sum ∧
      ∀ texts, String.join (sum.map (·.text texts)) = String.join (pieces.map (·.text texts)) := by
  cases h with
  | nil => exact ⟨[.written ""], .piece (makes_string ""), fun _ => rfl⟩
  | @cons piece first pieces parts hpiece hrest =>
    cases hrest with
    | nil => exact ⟨[piece], .piece hpiece, fun _ => rfl⟩
    | @cons other second pieces parts hother hothers =>
      rw [concatenation_cons_cons]
      split
      · rename_i hty
        exact ⟨_, (Joins.piece hpiece).foldl_joined hty (.cons hother hothers), fun _ => rfl⟩
      · have hempty : Joins args (joined (string "") first) ([.written ""] ++ [piece]) :=
          .plus rfl (.piece (makes_string "")) rfl hpiece
        refine ⟨_, hempty.foldl_joined rfl (.cons hother hothers), fun texts => ?_⟩
        simp [Piece.text, String.join_cons]

-- More than one part is always joined to a text, and no part to the empty one.
theorem ty_concatenation_iff {parts : List Element} :
    (concatenation parts).ty = .string ↔ ∀ part, parts = [part] → part.ty = .string := by
  have hfoldl : ∀ (others : List Element) (left : Element), left.ty = .string →
      (others.foldl joined left).ty = .string := by
    intro others
    induction others with
    | nil => exact fun left hleft => hleft
    | cons part others ih => exact fun left _ => ih (joined left part) rfl
  match parts with
  | [] => exact iff_of_true rfl fun part h => nomatch h
  | [part] =>
    constructor
    · rintro hty _ ⟨⟩
      exact hty
    · exact fun h => h part rfl
  | first :: second :: rest =>
    refine iff_of_true ?_ fun part h => nomatch h
    rw [concatenation_cons_cons]
    exact hfoldl rest _ rfl

theorem Joins.entry {e : Element} {pieces : List Piece} (h : Joins args e pieces) (s : State) :
    Joins args (s.entry e).element pieces := by
  obtain ⟨stamp, hentry⟩ := s.exists_entry_eq e
  rw [hentry]
  cases h with
  | piece h =>
    cases h with
    | written h => exact .piece (.written h)
    | argument harg h => exact .piece (.argument harg h)
  | plus hshape hleft htext hright => exact .plus hshape hleft htext hright

end Element

-- The arguments of a call site, in the order in which they were pushed.
def State.operands (s : State) (signature : MethodDescriptor) : List Element :=
  (s.stack.take signature.parameters.length).reverse.map (·.element)

theorem State.length_operands {s : State} {signature : MethodDescriptor}
    (h : signature.parameters.length ≤ s.stack.length) :
    (s.operands signature).length = signature.parameters.length := by
  rw [operands, List.length_map, List.length_reverse, List.length_take_of_le h]

namespace Registry

variable {s t : State} {index : UInt16} {site : CallSiteRef} {signature : MethodDescriptor}
  {factory : HandleRef} {arguments : List UInt16}

-- What joins all arguments is pushed in their place, whatever texts they have.
theorem parts_eq_ok {args : List Element} {pool : Pool} {whole : List String → String}
    (hjoins : pool.Joins args.length arguments whole) :
    ∃ es pieces, parts pool args arguments = .ok es ∧
      List.Forall₂ (Piece.Makes args) pieces es ∧ ∀ texts : List String,
        texts.length = args.length → String.join (pieces.map (·.text texts)) = whole texts := by
  cases hjoins with
  | plain =>
    refine ⟨args, (List.range args.length).map .argument, rfl, makes_arguments, fun texts hlen => ?_⟩
    rw [← hlen, List.map_map]
    refine congrArg String.join (List.ext_getElem (by simp) fun place _ hplace => ?_)
    simp [Piece.text, List.getElem?_eq_getElem hplace]
  | recipe hrecipe hargs hconstants hmarks =>
    obtain ⟨es, pieces, hes, hpieces, htext⟩ := exists_pieces [] 0
      (by rw [Nat.zero_add, hargs]) hconstants hmarks
    refine ⟨es, pieces, ?_, hpieces, fun texts hlen => ?_⟩
    · rw [parts, hrecipe]
      exact hes
    · rw [htext texts hlen]
      exact String.empty_append

-- A concatenation that is executed takes its arguments off the stack and pushes what its parts are
-- joined to.
theorem executes_concatenation_iff (ha : s.aborted = false) (hsite : s.AtSite index)
    (hlinks : s.method.Links index site signature factory arguments)
    (hfactory : factory.member.owner = concatenationFactory) :
    core.Executes s t ↔ signature.parameters.length ≤ s.stack.length ∧
      ∃ es, parts s.pool (s.operands signature) arguments = .ok es ∧
        t = ((s.called.leaving (s.stack.drop signature.parameters.length)).push
          (.concatenation es)).unchecked := by
  have hcalled : s.called.method.Links index site signature factory arguments := hlinks
  have hlink : link index site signature factory arguments = concatenate signature arguments :=
    if_pos hfactory
  rw [executes_site_iff ha hsite, exec_invoke_of_links hcalled, hlink]
  constructor
  · rintro ⟨u, hu, rfl⟩
    obtain ⟨hlen, es, hes, rfl⟩ := concatenate_eq_ok hu
    exact ⟨hlen, es, hes, rfl⟩
  · rintro ⟨hlen, es, hes, rfl⟩
    have hlen' : signature.parameters.length ≤ s.called.stack.length := hlen
    have hes' : parts s.called.pool ((s.called.stack.take signature.parameters.length).reverse.map
        (·.element)) arguments = .ok es := hes
    refine ⟨_, ?_, rfl⟩
    rw [exec_concatenate signature arguments hlen', hes']
    rfl

-- A concatenation keeps its text. It takes exactly its arguments off the stack, and what it pushes
-- reads from left to right as the text that the call site describes, whatever the texts of the
-- arguments are.
theorem concatenation_keeps_text {whole : List String → String} (ha : s.aborted = false)
    (hsite : s.AtSite index) (hlinks : s.method.Links index site signature factory arguments)
    (hfactory : factory.member.owner = concatenationFactory)
    (hstack : signature.parameters.length ≤ s.stack.length)
    (hjoins : s.pool.Joins signature.parameters.length arguments whole) :
    ∃ t top pieces, core.Executes s t ∧
      t.stack = top :: s.stack.drop signature.parameters.length ∧
      top.element.Joins (s.operands signature) pieces ∧
      ∀ texts : List String, texts.length = signature.parameters.length →
        String.join (pieces.map (·.text texts)) = whole texts := by
  have hlen := State.length_operands hstack
  rw [← hlen] at hjoins
  obtain ⟨es, pieces, hes, hpieces, htext⟩ := parts_eq_ok hjoins
  obtain ⟨sum, hsum, hsame⟩ := Element.exists_joins hpieces
  let u := s.called.leaving (s.stack.drop signature.parameters.length)
  refine ⟨(u.push (.concatenation es)).unchecked, u.entry (.concatenation es), sum,
    (executes_concatenation_iff ha hsite hlinks hfactory).2 ⟨hstack, es, hes, rfl⟩,
    State.stack_unchecked _, hsum.entry u, fun texts htexts => ?_⟩
  rw [hsame, htext texts (htexts.trans hlen.symm)]

-- A method with a call site that joins its arguments by a recipe.
def joining (recipe descriptor : String) (constants : List UInt16) (code : Bytes) : Method :=
  { className := "A", name := "m", descriptor := "(I)Ljava/lang/String;", flags := 9
    signature := ⟨[.int], .string⟩, code, locals := [⟨"x", .int, 0, 0, 100⟩]
    pool := ⟨#[.utf8 "java/lang/invoke/StringConcatFactory", .classRef 1,
      .utf8 "makeConcatWithConstants", .utf8 "()V", .nameAndType 3 4, .methodRef 2 5,
      .methodHandle 6 6, .utf8 recipe, .string 8, .utf8 " and ", .string 10, .utf8 descriptor,
      .nameAndType 3 12, .invokeDynamic 0 13]⟩
    bootstrapMethods := [⟨7, 9 :: constants⟩] }

-- What links the call site of the method.
def joiningFactory : HandleRef :=
  ⟨.invokeStatic, ⟨concatenationFactory, "makeConcatWithConstants", "()V", false⟩⟩

-- Two numbers, with a text, a constant and a text around them.
def joinsTwo : Method :=
  joining "(\x01\x02\x01)" "(II)Ljava/lang/String;" [11] [Opcode.invokedynamic, 0, 14, 0, 0]

-- The state in front of the call site with two numbers on the stack.
def beforeJoinsTwo : State :=
  ((State.start joinsTwo (.behind joinsTwo.code 0)).push (.int 1)).push (.int 2)

theorem links_joinsTwo : beforeJoinsTwo.method.Links 14
    ⟨0, "makeConcatWithConstants", "(II)Ljava/lang/String;"⟩ ⟨[.int, .int], .string⟩ joiningFactory
    [9, 11] :=
  ⟨by decide +kernel, by decide +kernel, 7, by decide +kernel, by decide +kernel⟩

theorem atSite_joinsTwo : beforeJoinsTwo.AtSite 14 :=
  ⟨[0, 14, 0, 0], by decide +kernel, by decide, by decide +kernel⟩

theorem concatenation_keeps_text_joinsTwo :
    ∃ t top pieces, core.Executes beforeJoinsTwo t ∧ t.stack = [top] ∧
      top.element.Joins (beforeJoinsTwo.stack.reverse.map (·.element)) pieces ∧
      ∀ first second : String, String.join (pieces.map (·.text [first, second])) =
        "(" ++ (first ++ (" and " ++ (second ++ ")"))) := by
  have hconstant : beforeJoinsTwo.pool.loadable 11 = .ok (.string " and ") := by decide +kernel
  have hjoins : beforeJoinsTwo.pool.Joins 2 [9, 11] fun texts =>
      fill "(\x01\x02\x01)".toList texts ([.string " and "].map constantText) :=
    @Pool.Joins.recipe _ _ 9 _ [11] [] _ (by decide +kernel) (by decide +kernel)
      (.cons hconstant .nil) (by decide +kernel)
  obtain ⟨t, top, pieces, ht, hstack, hjoined, htext⟩ :=
    concatenation_keeps_text rfl atSite_joinsTwo links_joinsTwo rfl (Nat.le_refl 2) hjoins
  refine ⟨t, top, pieces, ht, hstack, hjoined, fun first second => ?_⟩
  have hrecipe : "(\x01\x02\x01)".toList = ['(', '\x01', '\x02', '\x01', ')'] := by decide
  rw [htext [first, second] rfl, hrecipe]
  simp [fill, String.join_cons, constantText]

theorem parts_cons_eq_ok {args es : List Element} {pool : Pool} {recipe : UInt16}
    {constants : List UInt16} (h : parts pool args (recipe :: constants) = .ok es) :
    ∃ text, pool.loadable recipe = .ok (.string text) ∧
      recipeParts pool text.toList [] args constants = .ok es := by
  rw [parts] at h
  split at h
  · cases h
  · exact ⟨_, ‹_›, h⟩
  · cases h

theorem ty_concatenation_of_parts {args : List Element} {pool : Pool} {es : List Element}
    (h : parts pool args arguments = .ok es) : (Element.concatenation es).ty = .string ↔
      (pool.JoinsOne args.length arguments → ∃ arg, args.head? = some arg ∧ arg.ty = .string) := by
  rw [Element.ty_concatenation_iff]
  cases arguments with
  | nil =>
    obtain rfl := Except.ok.inj h
    constructor
    · intro hty hone
      obtain ⟨arg, rfl⟩ := List.length_eq_one_iff.1 hone
      exact ⟨arg, rfl, hty arg rfl⟩
    · rintro hty part rfl
      obtain ⟨arg, harg, hstring⟩ := hty rfl
      cases harg
      exact hstring
  | cons recipe constants =>
    obtain ⟨text, hrecipe, hes⟩ := parts_cons_eq_ok h
    constructor
    · intro hty hone
      have htext : text = "\x01" := by
        rw [Pool.JoinsOne, hrecipe] at hone
        exact Loadable.string.inj (Except.ok.inj hone)
      subst htext
      have hmark : "\x01".toList = ['\x01'] := by decide
      rw [hmark] at hes
      cases args with
      | nil => cases hes
      | cons arg args =>
        rw [recipeParts_argument] at hes
        obtain rfl := Except.ok.inj hes
        exact ⟨arg, rfl, hty arg rfl⟩
    · rintro hty part rfl
      by_contra hpart
      obtain ⟨hmark, -, hhead⟩ := recipeParts_eq_singleton hes hpart
      have htext : text = "\x01" := String.toList_inj.1 (hmark.trans (by decide))
      obtain ⟨arg, harg, hstring⟩ := hty (by rw [Pool.JoinsOne, hrecipe, htext])
      obtain rfl := Option.some.inj (hhead.symm.trans harg)
      exact hpart hstring

-- The expression of an executed concatenation is a text exactly if it is not made of one argument
-- alone, or of one that is a text itself.
theorem concatenation_isText_iff (hsite : s.AtSite index)
    (hlinks : s.method.Links index site signature factory arguments)
    (hfactory : factory.member.owner = concatenationFactory) (h : core.Executes s t) :
    ∃ top, t.stack = top :: s.stack.drop signature.parameters.length ∧
      (top.element.ty = .string ↔ (s.pool.JoinsOne signature.parameters.length arguments →
        ∃ arg, (s.operands signature).head? = some arg ∧ arg.ty = .string)) := by
  obtain ⟨hstack, es, hes, rfl⟩ := (executes_concatenation_iff h.1 hsite hlinks hfactory).1 h
  refine ⟨_, State.stack_unchecked _, ?_⟩
  rw [State.ty_entry, ty_concatenation_of_parts hes, State.length_operands hstack]

-- Two numbers are joined to a text, although the first of them is none.
theorem concatenation_isText_joinsTwo : ∃ t top, core.Executes beforeJoinsTwo t ∧ t.stack = [top] ∧
    top.element.ty = .string := by
  obtain ⟨t, hnext⟩ : ∃ t, core.next? beforeJoinsTwo = some t :=
    Option.isSome_iff_exists.1 (by decide +kernel)
  have ht := next?_eq_some_iff.1 hnext
  obtain ⟨top, hstack, hty⟩ := concatenation_isText_iff atSite_joinsTwo links_joinsTwo rfl ht
  refine ⟨t, top, ht, hstack, hty.2 fun hone => ?_⟩
  have hrecipe : beforeJoinsTwo.pool.loadable 9 = .ok (.string "(\x01\x02\x01)") := by
    decide +kernel
  rw [Pool.JoinsOne, hrecipe] at hone
  exact absurd hone (by decide)

-- A number joined to nothing, with which the method returns.
def joinsOne : Method :=
  joining "\x01" "(I)Ljava/lang/String;" []
    [Opcode.iload0, Opcode.invokedynamic, 0, 14, 0, 0, Opcode.areturn]

-- The number stays one, and the return refuses it.
theorem not_concatenation_isText_joinsOne :
    ∃ s t top, core.Runs (.start joinsOne (.behind joinsOne.code 0)) s ∧ s.AtSite 14 ∧
      s.method.Links 14 ⟨0, "makeConcatWithConstants", "(I)Ljava/lang/String;"⟩ ⟨[.int], .string⟩
        joiningFactory [9] ∧
      joiningFactory.member.owner = concatenationFactory ∧ core.Executes s t ∧ t.stack = [top] ∧
      top.element.ty = .int ∧
      ¬(core.decompile Observer.idle ⟨⟩ joinsOne (.behind joinsOne.code 0)).result.isOk := by
  let start := State.start joinsOne (.behind joinsOne.code 0)
  let pushed := (exec (core.step Opcode.iload0) start.fetch).2
  let joined := (exec (core.step Opcode.invokedynamic) pushed.fetch).2
  have hpushed : core.Executes start pushed :=
    executes_of_isOk (by decide +kernel) (by decide +kernel) (by decide +kernel)
  have hjoined : core.Executes pushed joined :=
    executes_of_isOk (by decide +kernel) (by decide +kernel) (by decide +kernel)
  have hlinks : pushed.method.Links 14 ⟨0, "makeConcatWithConstants", "(I)Ljava/lang/String;"⟩
      ⟨[.int], .string⟩ joiningFactory [9] :=
    ⟨by decide +kernel, by decide +kernel, 7, by decide +kernel, by decide +kernel⟩
  have htypes : joined.stack.map (·.element.ty) = [.int] := by decide +kernel
  obtain ⟨top, hstack, hty⟩ := List.map_eq_singleton_iff.1 htypes
  exact ⟨pushed, joined, top, .single hpushed,
    ⟨[0, 14, 0, 0, Opcode.areturn], by decide +kernel, by decide, by decide +kernel⟩, hlinks, rfl,
    hjoined, hstack, hty, by decide +kernel⟩

end Registry

end JvmLift
