import Grove.Proofs.Loading
import Grove.Proofs.RoundTrip
import Grove.Proofs.Tables

/-! Documents survive the round trip. A named tree over a standard vocabulary is written as a document, and the
document is read as that tree: its name, its types and its text come back as they were, and the text is read against
the signature that was declared with it. -/

namespace Grove

/-- The signatures that documents may declare: a plain concrete type to return, and concrete variables. -/
structure Signature.Declarable (s : Signature) : Prop where
  plain : s.returns.qualifier = .plain
  returns : s.returns.base ≠ .any
  arguments : ∀ ty ∈ s.arguments, ty.base ≠ .any
  locals : ∀ ty ∈ s.locals, ty.base ≠ .any

/-- The fields of a declaration, each with how it is written and what it is read as. -/
def declarationFields (name returns : String) (arguments locals : List String) (body : String) :
    List (String × List Char × Toml) :=
  [("name", Toml.writeString name, .string name),
    ("return_type", Toml.writeString returns, .string returns),
    ("arguments", Toml.writeStrings arguments, .array (arguments.map .string)),
    ("local_variables", Toml.writeStrings locals, .array (locals.map .string)),
    ("tree_entity", Toml.writeString body, .string body)]

def documentText (name returns : String) (arguments locals : List String) (body : String) : String :=
  String.ofList (Toml.writeHeader "tree" ++
    (declarationFields name returns arguments locals body).flatMap fun f => Toml.writePair f.1 f.2.1)

theorem Tree.document_ok {types : TypeCatalog} {t : Tree} {name returns body : String} {arguments locals : List String}
    (hn : t.name = some name) (hr : types.name t.signature.returns = .ok returns)
    (ha : typeNames types t.signature.arguments = .ok arguments) (hl : typeNames types t.signature.locals = .ok locals)
    (hb : t.text types = .ok body) : t.document types = .ok (documentText name returns arguments locals body) := by
  have text : String.ofList (Toml.writeHeader "tree" ++ Toml.writePair "name" (Toml.writeString name)
      ++ Toml.writePair "return_type" (Toml.writeString returns)
      ++ Toml.writePair "arguments" (Toml.writeStrings arguments)
      ++ Toml.writePair "local_variables" (Toml.writeStrings locals)
      ++ Toml.writePair "tree_entity" (Toml.writeString body)) = documentText name returns arguments locals body := by
    simp [documentText, declarationFields]
  rw [document, hn]
  refine Result.bind_ok.2 ⟨returns, Result.liftError_ok.2 hr, Result.bind_ok.2 ⟨arguments, ?_, ?_⟩⟩
  · exact Result.liftError_ok.2 ha
  refine Result.bind_ok.2 ⟨locals, Result.liftError_ok.2 hl, Result.bind_ok.2 ⟨body, hb, ?_⟩⟩
  exact congrArg Except.ok text

namespace Declaration

variable {name returns body : String} {arguments locals : List String}

theorem strings?_array (ss : List String) : (Toml.array (ss.map .string)).strings? = some ss := by
  rw [Toml.strings?]
  induction ss with
  | nil => rfl
  | cons s ss ih =>
    rw [List.map_cons, List.mapM_cons, ih]
    rfl

theorem ofToml?_fields :
    ofToml? (.table .header ((declarationFields name returns arguments locals body).map fun f => (f.1, f.2.2))) =
      some ⟨some name, some returns, arguments, locals, some body⟩ := by
  have found : Toml.fields? keys
      (.table .header ((declarationFields name returns arguments locals body).map fun f => (f.1, f.2.2))) =
        some [some (.string name), some (.string returns), some (.array (arguments.map .string)),
          some (.array (locals.map .string)), some (.string body)] := rfl
  rw [ofToml?, found]
  simp [Toml.optional, Toml.orDefault, Toml.string?, strings?_array]

theorem read_documentText : read (documentText name returns arguments locals body) =
    .ok ⟨some name, some returns, arguments, locals, some body⟩ := by
  have written : ∀ f ∈ declarationFields name returns arguments locals body,
      Toml.Bare f.1 ∧ Toml.Writes f.2.1 f.2.2 := by
    simp only [declarationFields, List.forall_mem_cons]
    refine ⟨?_, ?_, ?_, ?_, ?_, by simp⟩
    · exact ⟨by decide, Toml.writes_string name⟩
    · exact ⟨by decide, Toml.writes_string returns⟩
    · exact ⟨by decide, Toml.writes_strings arguments⟩
    · exact ⟨by decide, Toml.writes_strings locals⟩
    · exact ⟨by decide, Toml.writes_string body⟩
  have distinct : ((declarationFields name returns arguments locals body).map (·.1)).Nodup :=
    (by decide : keys.Nodup)
  have table : Toml.read (documentText name returns arguments locals body) = some (.table .header [("tree",
      .table .header ((declarationFields name returns arguments locals body).map fun f => (f.1, f.2.2)))]) :=
    Toml.read_table (by decide) written distinct
  have tree : ∀ t, (Toml.table .header [("tree", t)]).fields? ["tree"] = some [some t] := fun _ => rfl
  unfold read
  rw [table, Option.bind_some, tree]
  dsimp only
  rw [ofToml?_fields]
  rfl

example : documentText "Five" "int" [] ["bool", "ref[int]"] "+--Const<int,5>\n" =
    "[tree]\nname = \"Five\"\nreturn_type = \"int\"\narguments = []\nlocal_variables = [\"bool\", \"ref[int]\"]\n" ++
      "tree_entity = \"\"\"\n+--Const<int,5>\n\"\"\"\n" := by decide +kernel

theorem lookupType_name {ty : Ty} (h : TypeCatalog.standard.name ty = .ok name) (c : Complaints) :
    lookupType .standard name c = (some ty, c) := by
  rw [lookupType, (typeName_of_standard h).lookup]
  rfl

theorem variableTypes_names {tys : List Ty} (h : ∀ ty ∈ tys, ty.base ≠ .any) :
    ∃ names, Tree.typeNames .standard tys = .ok names ∧
      ∀ what i c, variableTypes .standard what i names c = (tys, c) := by
  induction tys with
  | nil => exact ⟨[], rfl, fun _ _ _ => rfl⟩
  | cons ty tys ih =>
    obtain ⟨hty, htys⟩ := List.forall_mem_cons.1 h
    obtain ⟨name, hname⟩ := name_of_concrete ty hty
    obtain ⟨names, hnames, hread⟩ := ih htys
    refine ⟨name :: names, ?_, fun what i c => ?_⟩
    · rw [Tree.typeNames, List.mapM_cons]
      exact Result.bind_ok.2 ⟨name, hname, Result.bind_ok.2 ⟨names, hnames, rfl⟩⟩
    · have hany : ty.isAny = false := by simpa [Ty.isAny] using hty
      rw [variableTypes, lookupType_name hname]
      simp only [hany, Bool.false_eq_true, if_false, hread]

theorem returnType_name {d : Declaration} {ty : Ty} (hp : ty.qualifier = .plain) (h : ty.base ≠ .any)
    (hname : TypeCatalog.standard.name ty = .ok returns) (hd : d.returns = some returns) (c : Complaints) :
    d.returnType .standard c = (some ty, c) := by
  have plain : (ty.isQualified || ty.isAny) = false := by simp [Ty.isQualified, Ty.isAny, hp, h]
  rw [returnType, hd]
  simp only [lookupType_name hname, plain, Bool.false_eq_true, if_false]

end Declaration

/-- A signature that documents may declare has a declaration, which is read as that signature. -/
theorem Signature.Declarable.parse {s : Signature} {name : String} (hs : s.Declarable) (hn : s.name = some name)
    (body : String) :
    ∃ returns arguments locals,
      TypeCatalog.standard.name s.returns = .ok returns ∧ Tree.typeNames .standard s.arguments = .ok arguments ∧
      Tree.typeNames .standard s.locals = .ok locals ∧
      parseDocument .standard (documentText name returns arguments locals body) = .ok (s, body) := by
  obtain ⟨returns, hreturns⟩ := name_of_concrete s.returns hs.returns
  obtain ⟨arguments, harguments, readArguments⟩ := Declaration.variableTypes_names hs.arguments
  obtain ⟨locals, hlocals, readLocals⟩ := Declaration.variableTypes_names hs.locals
  refine ⟨returns, arguments, locals, hreturns, harguments, hlocals, ?_⟩
  have resolved : Declaration.resolve ⟨some name, some returns, arguments, locals, some body⟩ .standard =
      .ok (s, body) := by
    rw [Declaration.resolve, Declaration.returnType_name hs.plain hs.returns hreturns rfl]
    simp only [readArguments, readLocals, Option.getD_some, ← hn]
    rfl
  rw [parseDocument, Declaration.read_documentText]
  exact resolved

/-- What is written of a valid named tree of known nodes is read as that tree, up to the numbers of the nodes. -/
theorem readDocument_document {v : Vocabulary} {t : Tree} {ns : List Node} {name : String} (hc : v.catalog.Stocked)
    (ht : t.ValidFor t.signature) (hns : t.Lists ns) (hk : ∀ n ∈ ns, v.Knows n ∧ n.Legible) (hn : t.name = some name)
    (hs : t.signature.Declarable) :
    ∃ text t', t.document v.catalog.types = .ok text ∧ v.readDocument text = .ok t' ∧ t'.ValidFor t.signature ∧
      t'.Alike t := by
  obtain ⟨e, hd, ha⟩ := ht.term
  obtain rfl := hd.lists.1 hns
  obtain ⟨body, hbody, hread⟩ := Vocabulary.readTree_planted hc.spelled hk hd ha
  obtain ⟨returns, arguments, locals, hreturns, harguments, hlocals, hparse⟩ := hs.parse hn body
  have alike : (Tree.planted t.signature e).Alike t := ⟨rfl, e, Tree.denotes_planted t.signature e, hd⟩
  rw [← hc.spelled.types] at hbody hreturns harguments hlocals hparse
  refine ⟨documentText name returns arguments locals body, .planted t.signature e, ?_, ?_, ?_, alike⟩
  · exact Tree.document_ok hn hreturns harguments hlocals hbody
  · exact Result.bind_ok.2 ⟨(t.signature, body), hparse, hread⟩
  · exact Tree.validFor_planted ha

/-- The signature under which the sample calls itself, with variables of every form. -/
def recursiveSignature : Signature := ⟨some "double", .int, [.int], [.bool, Ty.ints.reference, Ty.float.leftHand]⟩

theorem readDocument_recursive : recursiveSignature.Declarable ∧
    (Tree.planted recursiveSignature sampleTerm).ValidFor recursiveSignature ∧
    ∃ c, NodeCatalog.standard .standard [.int] [] = .ok c ∧
      (∀ n ∈ sampleTerm.nodes, Vocabulary.Knows ⟨c, sampleRegistry⟩ n ∧ n.Legible) ∧
      ∃ text t', (Tree.planted recursiveSignature sampleTerm).document c.types = .ok text ∧
        Vocabulary.readDocument ⟨c, sampleRegistry⟩ text = .ok t' ∧ t'.ValidFor recursiveSignature ∧
          t'.Alike (.planted recursiveSignature sampleTerm) := by
  obtain ⟨c, hc, hk⟩ := sampleTerm_known
  have ha : recursiveSignature.Admits sampleTerm := ⟨by decide +kernel, by decide +kernel, by decide +kernel⟩
  have hs : recursiveSignature.Declarable := ⟨rfl, by decide, by decide, by decide⟩
  have hv := Tree.validFor_planted ha
  have hl : (Tree.planted recursiveSignature sampleTerm).Lists sampleTerm.nodes :=
    (Tree.denotes_planted _ _).lists.2 rfl
  exact ⟨hs, hv, c, hc, hk, readDocument_document (v := ⟨c, sampleRegistry⟩) (.standard hc) hv hl hk rfl hs⟩

end Grove
