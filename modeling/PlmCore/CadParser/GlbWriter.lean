/-
The GLB files of the conversion worker (`worker-convert.js`).

`buildGlb` lays the arrays of all meshes one behind the other into one buffer and describes them in a JSON text:
a buffer view for each array, an accessor for each view, a primitive with its material for each mesh. The file is
a header, the JSON chunk and the binary chunk. Offsets and indices are accumulated along the loop over the
meshes, so the file is right only if what was described early is still in its place at the end.

Numbers of JavaScript are a type `F` that is given, with their order, their infinities, the four bytes of a
`Float32Array` entry and their JSON text.
-/
import Mathlib.Data.List.Forall2
import Mathlib.Order.Defs.LinearOrder

set_option autoImplicit false

namespace PlmCore.CadParser.GlbWriter

/-! ## Numbers and bytes -/

/-- What the writer uses of the numbers of JavaScript. -/
structure Numbers (F : Type) where
  /-- What a literal stands for: its digits, and how many are behind the point. -/
  literal : Nat → Nat → F
  lt : F → F → Bool
  infinity : F
  negInfinity : F
  /-- The bytes of an entry of a `Float32Array`. -/
  float32 : F → Vector UInt8 4
  /-- Its text in JSON, `null` for the infinities. -/
  text : F → String

/-- `n` in four bytes, the lowest first. -/
def uint32LE (n : Nat) : List UInt8 :=
  [UInt8.ofNat n, UInt8.ofNat (n / 256), UInt8.ofNat (n / 65536), UInt8.ofNat (n / 16777216)]

/-- `Buffer.writeUInt32LE`, which throws on a number that does not fit. -/
def writeUInt32LE (n : Nat) : Option (List UInt8) := if n < 4294967296 then some (uint32LE n) else none

/-- `align4`. The operators of JavaScript work on 32 bits with a sign. -/
def align4 (n : Nat) : Int :=
  let bits : Int := ((n + 3) % 4294967296 : Nat)
  let signed := if bits < 2147483648 then bits else bits - 4294967296
  signed - signed % 4

/-! ## Meshes and the glTF object -/

abbrev Vertex (F : Type) := F × F × F

structure Mesh (F : Type) where
  positions : List (Vertex F)
  normals : Option (List (Vertex F))
  indices : Option (List UInt32)
  color : Option (F × F × F)

structure BufferView where
  byteOffset : Nat
  byteLength : Nat
  target : Nat
  deriving DecidableEq

inductive AccessorType
  | VEC3
  | SCALAR
  deriving DecidableEq

structure Accessor (F : Type) where
  bufferView : Nat
  componentType : Nat
  count : Nat
  type : AccessorType
  min : Option (Vertex F)
  max : Option (Vertex F)
  deriving DecidableEq

/-- The one primitive of a mesh. -/
structure Primitive where
  position : Nat
  normal : Option Nat
  indices : Option Nat
  material : Nat
  deriving DecidableEq

structure Material (F : Type) where
  baseColorFactor : List F
  metallicFactor : F
  roughnessFactor : F
  deriving DecidableEq

structure Gltf (F : Type) where
  meshes : List Primitive
  materials : List (Material F)
  accessors : List (Accessor F)
  bufferViews : List BufferView
  /-- `byteLength` of the only buffer. -/
  bufferLength : Nat
  deriving DecidableEq

/-! ## The loop over the meshes -/

section Writer

variable {F : Type} (num : Numbers F)

/-- What the loop has collected. -/
structure Layout (F : Type) where
  bufParts : List (List UInt8)
  bufferViews : List BufferView
  accessors : List (Accessor F)
  gltfMeshes : List Primitive
  materials : List (Material F)
  byteOffset : Nat

def Layout.empty : Layout F := ⟨[], [], [], [], [], 0⟩

def Layout.pushBytes (bytes : List UInt8) (s : Layout F) : Layout F :=
  { s with bufParts := s.bufParts ++ [bytes], byteOffset := s.byteOffset + bytes.length }

def Layout.padTo4 (s : Layout F) : Layout F :=
  if s.byteOffset % 4 = 0 then s else s.pushBytes (List.replicate (4 - s.byteOffset % 4) 0)

/-- A buffer view of the bytes, the bytes, and an accessor of the view. -/
def Layout.pushArray (bytes : List UInt8) (target : Nat) (accessor : Nat → Accessor F) (s : Layout F) : Layout F :=
  let view := s.bufferViews.length
  let s := { s with bufferViews := s.bufferViews ++ [BufferView.mk s.byteOffset bytes.length target] }
  let s := s.pushBytes bytes
  { s with accessors := s.accessors ++ [accessor view] }

/-- The bytes of an array of vertices. -/
def vertexBytes (vs : List (Vertex F)) : List UInt8 :=
  vs.flatMap fun v => (num.float32 v.1).toList ++ (num.float32 v.2.1).toList ++ (num.float32 v.2.2).toList

def indexBytes (is : List UInt32) : List UInt8 := is.flatMap fun i => uint32LE i.toNat

/-- `if (x < min) min = x`. -/
def lower (min x : F) : F := if num.lt x min then x else min

/-- `if (x > max) max = x`. -/
def upper (max x : F) : F := if num.lt max x then x else max

/-- The least coordinates, from `Infinity` on. -/
def minVertex (vs : List (Vertex F)) : Vertex F :=
  vs.foldl (fun m v => (lower num m.1 v.1, lower num m.2.1 v.2.1, lower num m.2.2 v.2.2))
    (num.infinity, num.infinity, num.infinity)

/-- The greatest coordinates, from `-Infinity` on. -/
def maxVertex (vs : List (Vertex F)) : Vertex F :=
  vs.foldl (fun m v => (upper num m.1 v.1, upper num m.2.1 v.2.1, upper num m.2.2 v.2.2))
    (num.negInfinity, num.negInfinity, num.negInfinity)

def positionAccessor (vs : List (Vertex F)) (view : Nat) : Accessor F :=
  ⟨view, 5126, vs.length, .VEC3, some (minVertex num vs), some (maxVertex num vs)⟩

/-- Normals are counted like the vertices. -/
def normalAccessor (vertCount view : Nat) : Accessor F := ⟨view, 5126, vertCount, .VEC3, none, none⟩

def indexAccessor (count view : Nat) : Accessor F := ⟨view, 5125, count, .SCALAR, none, none⟩

/-- `if (normals) …`: where its accessor is. -/
def pushNormals (normals : Option (List (Vertex F))) (vertCount : Nat) (s : Layout F) : Layout F × Option Nat :=
  match normals with
  | none => (s, none)
  | some ns => (s.pushArray (vertexBytes num ns) 34962 (normalAccessor vertCount), some s.accessors.length)

/-- `if (indices) …`. -/
def pushIndices (indices : Option (List UInt32)) (s : Layout F) : Layout F × Option Nat :=
  match indices with
  | none => (s, none)
  | some is =>
    let s := s.padTo4
    (s.pushArray (indexBytes is) 34963 (indexAccessor is.length), some s.accessors.length)

def meshMaterial (color : Option (F × F × F)) : Material F :=
  let rgb := color.getD (num.literal 357 3, num.literal 608 3, num.literal 965 3)
  ⟨[rgb.1, rgb.2.1, rgb.2.2, num.literal 10 1], num.literal 1 1, num.literal 8 1⟩

/-- The primitive of a mesh with its material. -/
def Layout.pushPrimitive (position : Nat) (normal indices : Option Nat) (material : Material F) (s : Layout F) :
    Layout F :=
  { s with
    gltfMeshes := s.gltfMeshes ++ [Primitive.mk position normal indices s.materials.length]
    materials := s.materials ++ [material] }

/-- One round of the loop. -/
def pushMesh (s : Layout F) (mesh : Mesh F) : Layout F :=
  let afterPositions := s.pushArray (vertexBytes num mesh.positions) 34962 (positionAccessor num mesh.positions)
  let afterNormals := pushNormals num mesh.normals mesh.positions.length afterPositions
  let afterIndices := pushIndices mesh.indices afterNormals.1
  afterIndices.1.pushPrimitive s.accessors.length afterNormals.2 afterIndices.2 (meshMaterial num mesh.color)

def layout (meshes : List (Mesh F)) : Layout F := meshes.foldl (pushMesh num) Layout.empty

/-! ## The JSON text -/

/-- Elements with commas between them. -/
def jsonElements : List String → String
  | [] => ""
  | [x] => x
  | x :: y :: xs => x ++ "," ++ jsonElements (y :: xs)

def jsonArray (xs : List String) : String := "[" ++ jsonElements xs ++ "]"

/-- An object. A property that is undefined is left out. -/
def jsonObject (properties : List (String × Option String)) : String :=
  "\x7b" ++ jsonElements (properties.filterMap fun p => p.2.map fun value => "\"" ++ p.1 ++ "\":" ++ value) ++ "\x7d"

def jsonVertex (v : Vertex F) : String := jsonArray [num.text v.1, num.text v.2.1, num.text v.2.2]

def Primitive.json (p : Primitive) : String :=
  let attributes := jsonObject [("POSITION", some (toString p.position)), ("NORMAL", p.normal.map toString)]
  let primitive := jsonObject [("attributes", some attributes), ("mode", some "4"),
    ("indices", p.indices.map toString), ("material", some (toString p.material))]
  jsonObject [("primitives", some (jsonArray [primitive]))]

def Material.json (m : Material F) : String :=
  let pbr := jsonObject [("baseColorFactor", some (jsonArray (m.baseColorFactor.map num.text))),
    ("metallicFactor", some (num.text m.metallicFactor)), ("roughnessFactor", some (num.text m.roughnessFactor))]
  jsonObject [("pbrMetallicRoughness", some pbr), ("doubleSided", some "true")]

def AccessorType.json : AccessorType → String
  | .VEC3 => "\"VEC3\""
  | .SCALAR => "\"SCALAR\""

def Accessor.json (a : Accessor F) : String :=
  jsonObject [("bufferView", some (toString a.bufferView)), ("byteOffset", some "0"),
    ("componentType", some (toString a.componentType)), ("count", some (toString a.count)), ("type", some a.type.json),
    ("min", a.min.map (jsonVertex num)), ("max", a.max.map (jsonVertex num))]

def BufferView.json (v : BufferView) : String :=
  jsonObject [("buffer", some "0"), ("byteOffset", some (toString v.byteOffset)),
    ("byteLength", some (toString v.byteLength)), ("target", some (toString v.target))]

def assetJson : String :=
  jsonObject [("version", some "\"2.0\""), ("generator", some "\"cad-parser/occt-import-js\"")]

/-- `JSON.stringify(gltf)`. The nodes of the scene are the meshes. -/
def Gltf.json (g : Gltf F) : String :=
  let indices := List.range g.meshes.length
  let scene := jsonObject [("nodes", some (jsonArray (indices.map toString)))]
  let nodes := indices.map fun i => jsonObject [("mesh", some (toString i))]
  let buffer := jsonObject [("byteLength", some (toString g.bufferLength))]
  jsonObject [("asset", some assetJson), ("scene", some "0"), ("scenes", some (jsonArray [scene])),
    ("nodes", some (jsonArray nodes)), ("meshes", some (jsonArray (g.meshes.map Primitive.json))),
    ("materials", some (jsonArray (g.materials.map (Material.json num)))),
    ("accessors", some (jsonArray (g.accessors.map (Accessor.json num)))),
    ("bufferViews", some (jsonArray (g.bufferViews.map BufferView.json))), ("buffers", some (jsonArray [buffer]))]

/-! ## The file -/

/-- `Buffer.alloc(size, fill)`, which throws on a negative size. -/
def alloc (size : Int) (fill : UInt8) : Option (List UInt8) :=
  if size < 0 then none else some (List.replicate size.toNat fill)

/-- `binBuf.set(part, off)`, which throws where the part does not fit. -/
def setPart (buf part : List UInt8) (off : Nat) : Option (List UInt8) :=
  if off + part.length ≤ buf.length then some (buf.take off ++ part ++ buf.drop (off + part.length)) else none

/-- The loop over the parts. -/
def setParts : List (List UInt8) → Nat → List UInt8 → Option (List UInt8)
  | [], _, buf => some buf
  | part :: parts, off, buf => (setPart buf part off).bind (setParts parts (off + part.length))

/-- `jsonBuf.copy(jsonPad)`. -/
def copyInto (src buf : List UInt8) : List UInt8 := src.take buf.length ++ buf.drop src.length

def Layout.gltf (s : Layout F) (bufferLength : Nat) : Gltf F :=
  ⟨s.gltfMeshes, s.materials, s.accessors, s.bufferViews, bufferLength⟩

/-- `"glTF"`, the first word of the file. -/
def magicWord : Nat := 0x46546C67

/-- `"JSON"`. -/
def jsonType : Nat := 0x4E4F534A

/-- `"BIN\0"`. -/
def binType : Nat := 0x004E4942

/-- The three parts of the file, put together. -/
def assemble (json bin : List UInt8) : Option (List UInt8) := do
  let totalLen ← writeUInt32LE (12 + 8 + json.length + 8 + bin.length)
  let jsonLen ← writeUInt32LE json.length
  let binLen ← writeUInt32LE bin.length
  return uint32LE magicWord ++ uint32LE 2 ++ totalLen ++ (jsonLen ++ uint32LE jsonType) ++ json
    ++ (binLen ++ uint32LE binType) ++ bin

/-- The longest string of the engine, in characters. -/
def maxStringLength : Nat := 536870888

/-- The bytes of a text in UTF-8. -/
def utf8 (text : String) : List UInt8 := text.toList.flatMap String.utf8EncodeChar

/-- `Buffer.from(JSON.stringify(gltf), 'utf8')`. A text that is too long is an exception. -/
def jsonBytes (g : Gltf F) : Option (List UInt8) :=
  if (g.json num).length ≤ maxStringLength then some (utf8 (g.json num)) else none

/-- `buildGlb`: the file, or an exception. -/
def buildGlb (meshes : List (Mesh F)) : Option (List UInt8) := do
  let s := layout num meshes
  let zeros ← alloc (align4 s.byteOffset) 0
  let binBuf ← setParts s.bufParts 0 zeros
  let jsonBuf ← jsonBytes num (s.gltf zeros.length)
  let blanks ← alloc (align4 jsonBuf.length) 0x20
  assemble (copyInto jsonBuf blanks) binBuf

/-! ## Reading a file

What the format asks of a reader, to compare the writer with. -/

/-- Four bytes as a number, and what is behind them. -/
def readUInt32 : List UInt8 → Option (Nat × List UInt8)
  | a :: b :: c :: d :: rest => some (a.toNat + b.toNat * 256 + c.toNat * 65536 + d.toNat * 16777216, rest)
  | _ => none

/-- A chunk of a type: its data, and what is behind it. -/
def readChunk (type : Nat) (bytes : List UInt8) : Option (List UInt8 × List UInt8) := do
  let (len, bytes) ← readUInt32 bytes
  let (chunkType, bytes) ← readUInt32 bytes
  if chunkType = type ∧ len % 4 = 0 ∧ len ≤ bytes.length then return (bytes.take len, bytes.drop len) else none

/-- The JSON chunk and the binary chunk of a file. -/
def readGlb (file : List UInt8) : Option (List UInt8 × List UInt8) := do
  let (magic, bytes) ← readUInt32 file
  let (version, bytes) ← readUInt32 bytes
  let (length, bytes) ← readUInt32 bytes
  if magic = magicWord ∧ version = 2 ∧ length = file.length then
    let (json, bytes) ← readChunk jsonType bytes
    let (bin, bytes) ← readChunk binType bytes
    if bytes = [] then return (json, bin) else none
  else none

/-- The bytes of one element. -/
def AccessorType.size : AccessorType → Nat
  | .VEC3 => 12
  | .SCALAR => 4

/-- The bytes of an accessor. Its view is aligned and lies in the buffer, and the elements lie in the view. -/
def Gltf.read (g : Gltf F) (bin : List UInt8) (accessor : Nat) : Option (List UInt8) := do
  let a ← g.accessors[accessor]?
  let v ← g.bufferViews[a.bufferView]?
  let size := a.count * a.type.size
  if v.byteOffset % 4 = 0 ∧ size ≤ v.byteLength ∧ v.byteOffset + v.byteLength ≤ g.bufferLength then
    return (bin.drop v.byteOffset).take size
  else none

/-- **A primitive stands for a mesh**: its accessors read as the arrays of the mesh. -/
structure Gltf.Reads (g : Gltf F) (bin : List UInt8) (p : Primitive) (mesh : Mesh F) : Prop where
  positions : g.read bin p.position = some (vertexBytes num mesh.positions)
  /-- The box of the vertices stands with them. -/
  box : ∃ view, g.accessors[p.position]? = some (positionAccessor num mesh.positions view)
  normals : ∀ ns, mesh.normals = some ns → ns.length = mesh.positions.length →
    p.normal.bind (g.read bin) = some (vertexBytes num ns)
  noNormals : mesh.normals = none → p.normal = none
  indices : p.indices.bind (g.read bin) = mesh.indices.map indexBytes
  noIndices : mesh.indices = none → p.indices = none
  material : g.materials[p.material]? = some (meshMaterial num mesh.color)

/-- Views one behind the other. -/
def ViewsApart (views : List BufferView) : Prop :=
  views.Pairwise fun v w => v.byteOffset + v.byteLength ≤ w.byteOffset

/-! ## The arrays stay in their place -/

/-- The bytes collected so far. -/
def Layout.bytes (s : Layout F) : List UInt8 := s.bufParts.flatten

/-- The bookkeeping of the loop. -/
structure Layout.Good (s : Layout F) : Prop where
  offset : s.byteOffset = s.bytes.length
  aligned : s.byteOffset % 4 = 0
  viewAligned : ∀ v ∈ s.bufferViews, v.byteOffset % 4 = 0
  within : ∀ v ∈ s.bufferViews, v.byteOffset + v.byteLength ≤ s.byteOffset
  apart : ViewsApart s.bufferViews

/-- Nothing that was there is moved or changed. -/
structure Layout.Extends (s s' : Layout F) : Prop where
  bytes : s.bytes <+: s'.bytes
  views : s.bufferViews <+: s'.bufferViews
  accessors : s.accessors <+: s'.accessors
  materials : s.materials <+: s'.materials

/-- An accessor describes an array: it has a view of its bytes. -/
def Layout.Holds (s : Layout F) (accessor : Nat) (bytes : List UInt8) (mk : Nat → Accessor F) : Prop :=
  ∃ view v, s.accessors[accessor]? = some (mk view) ∧ s.bufferViews[view]? = some v ∧
    v.byteLength = bytes.length ∧ v.byteOffset + v.byteLength ≤ s.bytes.length ∧
    (s.bytes.drop v.byteOffset).take v.byteLength = bytes

variable {num} {s s' s'' : Layout F} {mesh : Mesh F} {meshes : List (Mesh F)}

theorem Layout.Extends.refl (s : Layout F) : s.Extends s :=
  ⟨List.prefix_refl _, List.prefix_refl _, List.prefix_refl _, List.prefix_refl _⟩

theorem Layout.Extends.trans (h : s.Extends s') (h' : s'.Extends s'') : s.Extends s'' :=
  ⟨h.bytes.trans h'.bytes, h.views.trans h'.views, h.accessors.trans h'.accessors, h.materials.trans h'.materials⟩

theorem getElem?_of_prefix {α : Type} {xs ys : List α} (h : xs <+: ys) {i : Nat} {x : α} (hx : xs[i]? = some x) :
    ys[i]? = some x := by
  obtain ⟨zs, rfl⟩ := h
  rw [List.getElem?_append_left (List.getElem?_eq_some_iff.mp hx).1, hx]

/-- **An array stays in its place.** -/
theorem Layout.Holds.mono {i : Nat} {bytes : List UInt8} {mk : Nat → Accessor F} (h : s.Holds i bytes mk)
    (hext : s.Extends s') : s'.Holds i bytes mk := by
  obtain ⟨view, v, ha, hv, hlen, hin, hread⟩ := h
  refine ⟨view, v, getElem?_of_prefix hext.accessors ha, getElem?_of_prefix hext.views hv, hlen,
    Nat.le_trans hin hext.bytes.length_le, ?_⟩
  obtain ⟨rest, hrest⟩ := hext.bytes
  have hdrop : v.byteOffset ≤ s.bytes.length := by omega
  have htake : v.byteLength ≤ (s.bytes.drop v.byteOffset).length := by
    rw [List.length_drop]
    omega
  rw [← hrest, List.drop_append_of_le_length hdrop, List.take_append_of_le_length htake, hread]

theorem Layout.bytes_pushArray (bytes : List UInt8) (target : Nat) (mk : Nat → Accessor F) (s : Layout F) :
    (s.pushArray bytes target mk).bytes = s.bytes ++ bytes := by
  simp [Layout.bytes, Layout.pushArray, Layout.pushBytes]

/-- **One array is pushed.** -/
theorem Layout.Good.pushArray (h : s.Good) {bytes : List UInt8} (hbytes : bytes.length % 4 = 0) (target : Nat)
    (mk : Nat → Accessor F) :
    (s.pushArray bytes target mk).Good ∧ s.Extends (s.pushArray bytes target mk) ∧
      (s.pushArray bytes target mk).Holds s.accessors.length bytes mk := by
  have hbytesEq := Layout.bytes_pushArray bytes target mk s
  have hviews : (s.pushArray bytes target mk).bufferViews =
      s.bufferViews ++ [BufferView.mk s.byteOffset bytes.length target] := rfl
  have haccessors : (s.pushArray bytes target mk).accessors = s.accessors ++ [mk s.bufferViews.length] := rfl
  have hoffset : (s.pushArray bytes target mk).byteOffset = s.byteOffset + bytes.length := rfl
  refine ⟨⟨?_, ?_, ?_, ?_, ?_⟩, ⟨?_, ?_, ?_, ?_⟩, ?_⟩
  · rw [hoffset, hbytesEq, List.length_append, h.offset]
  · have haligned := h.aligned
    rw [hoffset]
    omega
  · intro v hv
    rw [hviews, List.mem_append, List.mem_singleton] at hv
    rcases hv with hv | rfl
    · exact h.viewAligned v hv
    · exact h.aligned
  · intro v hv
    rw [hviews, List.mem_append, List.mem_singleton] at hv
    rw [hoffset]
    rcases hv with hv | rfl
    · have hle := h.within v hv
      omega
    · exact Nat.le_refl _
  · rw [hviews, ViewsApart, List.pairwise_append]
    refine ⟨h.apart, List.pairwise_singleton _ _, fun v hv w hw => ?_⟩
    rw [List.mem_singleton.mp hw]
    exact h.within v hv
  · rw [hbytesEq]
    exact List.prefix_append _ _
  · rw [hviews]
    exact List.prefix_append _ _
  · rw [haccessors]
    exact List.prefix_append _ _
  · exact List.prefix_refl _
  · refine ⟨s.bufferViews.length, BufferView.mk s.byteOffset bytes.length target, ?_, ?_, rfl, ?_, ?_⟩
    · rw [haccessors]
      exact List.getElem?_concat_length
    · rw [hviews]
      exact List.getElem?_concat_length
    · rw [hbytesEq, List.length_append]
      exact Nat.add_le_add_right (Nat.le_of_eq h.offset) _
    · rw [hbytesEq, h.offset, List.drop_left, List.take_length]

/-- All arrays have entries of four bytes, so `padTo4` never pads. -/
theorem Layout.Good.padTo4 (h : s.Good) : s.padTo4 = s := if_pos h.aligned

variable (num) in
theorem length_vertexBytes (vs : List (Vertex F)) : (vertexBytes num vs).length = vs.length * 12 := by
  induction vs with
  | nil => rfl
  | cons v vs ih =>
    rw [vertexBytes, List.flatMap_cons, List.length_append, ← vertexBytes, ih]
    simp
    omega

theorem length_indexBytes (is : List UInt32) : (indexBytes is).length = is.length * 4 := by
  induction is with
  | nil => rfl
  | cons i is ih =>
    rw [indexBytes, List.flatMap_cons, List.length_append, ← indexBytes, ih]
    simp [uint32LE]
    omega

/-! ## One round of the loop -/

variable (num) in
/-- A primitive describes a mesh. -/
structure Layout.Describes (s : Layout F) (p : Primitive) (mesh : Mesh F) : Prop where
  position : s.Holds p.position (vertexBytes num mesh.positions) (positionAccessor num mesh.positions)
  normal : ∀ ns, mesh.normals = some ns →
    ∃ i, p.normal = some i ∧ s.Holds i (vertexBytes num ns) (normalAccessor mesh.positions.length)
  noNormal : mesh.normals = none → p.normal = none
  indices : ∀ is, mesh.indices = some is →
    ∃ i, p.indices = some i ∧ s.Holds i (indexBytes is) (indexAccessor is.length)
  noIndices : mesh.indices = none → p.indices = none
  material : s.materials[p.material]? = some (meshMaterial num mesh.color)

theorem Layout.Describes.mono {p : Primitive} (h : s.Describes num p mesh) (hext : s.Extends s') :
    s'.Describes num p mesh where
  position := h.position.mono hext
  normal ns hns := by
    obtain ⟨i, hi, hholds⟩ := h.normal ns hns
    exact ⟨i, hi, hholds.mono hext⟩
  noNormal := h.noNormal
  indices is his := by
    obtain ⟨i, hi, hholds⟩ := h.indices is his
    exact ⟨i, hi, hholds.mono hext⟩
  noIndices := h.noIndices
  material := getElem?_of_prefix hext.materials h.material

variable (num) in
theorem pushNormals_spec (h : s.Good) (normals : Option (List (Vertex F))) (n : Nat) :
    (pushNormals num normals n s).1.Good ∧ s.Extends (pushNormals num normals n s).1 ∧
      (∀ ns, normals = some ns → ∃ i, (pushNormals num normals n s).2 = some i ∧
        (pushNormals num normals n s).1.Holds i (vertexBytes num ns) (normalAccessor n)) ∧
      (normals = none → (pushNormals num normals n s).2 = none) := by
  cases normals with
  | none =>
    refine ⟨h, .refl s, fun ns hns => ?_, fun _ => rfl⟩
    cases hns
  | some ns =>
    have hlen : (vertexBytes num ns).length % 4 = 0 := by
      rw [length_vertexBytes]
      omega
    obtain ⟨hgood, hext, hholds⟩ := h.pushArray hlen 34962 (normalAccessor n)
    refine ⟨hgood, hext, fun ns' hns => ?_, fun hnone => by cases hnone⟩
    cases hns
    exact ⟨_, rfl, hholds⟩

theorem pushIndices_spec (h : s.Good) (indices : Option (List UInt32)) :
    (pushIndices indices s).1.Good ∧ s.Extends (pushIndices indices s).1 ∧
      (∀ is, indices = some is → ∃ i, (pushIndices indices s).2 = some i ∧
        (pushIndices indices s).1.Holds i (indexBytes is) (indexAccessor is.length)) ∧
      (indices = none → (pushIndices indices s).2 = none) := by
  cases indices with
  | none =>
    refine ⟨h, .refl s, fun is his => ?_, fun _ => rfl⟩
    cases his
  | some is =>
    have hlen : (indexBytes is).length % 4 = 0 := by
      rw [length_indexBytes]
      omega
    have hpush : pushIndices (some is) s =
        (s.pushArray (indexBytes is) 34963 (indexAccessor is.length), some s.accessors.length) := by
      rw [pushIndices, h.padTo4]
    obtain ⟨hgood, hext, hholds⟩ := h.pushArray hlen 34963 (indexAccessor is.length)
    rw [hpush]
    refine ⟨hgood, hext, fun is' his => ?_, fun hnone => by cases hnone⟩
    cases his
    exact ⟨_, rfl, hholds⟩

theorem pushNormals_gltfMeshes (normals : Option (List (Vertex F))) (n : Nat) (s : Layout F) :
    (pushNormals num normals n s).1.gltfMeshes = s.gltfMeshes := by
  cases normals with
  | none => rfl
  | some ns => rfl

theorem pushIndices_gltfMeshes (h : s.Good) (indices : Option (List UInt32)) :
    (pushIndices indices s).1.gltfMeshes = s.gltfMeshes := by
  cases indices with
  | none => rfl
  | some is =>
    rw [pushIndices, h.padTo4]
    rfl

theorem Layout.Good.pushPrimitive (h : s.Good) (position : Nat) (normal indices : Option Nat) (material : Material F) :
    (s.pushPrimitive position normal indices material).Good := ⟨h.offset, h.aligned, h.viewAligned, h.within, h.apart⟩

theorem Layout.extends_pushPrimitive (position : Nat) (normal indices : Option Nat) (material : Material F)
    (s : Layout F) : s.Extends (s.pushPrimitive position normal indices material) :=
  ⟨List.prefix_refl _, List.prefix_refl _, List.prefix_refl _, List.prefix_append _ _⟩

variable (num) in
/-- **One mesh is pushed**: it is described, and nothing before it is touched. -/
theorem pushMesh_spec (h : s.Good) (mesh : Mesh F) :
    (pushMesh num s mesh).Good ∧ s.Extends (pushMesh num s mesh) ∧
      ∃ p, (pushMesh num s mesh).gltfMeshes = s.gltfMeshes ++ [p] ∧ (pushMesh num s mesh).Describes num p mesh := by
  have hlen : (vertexBytes num mesh.positions).length % 4 = 0 := by
    rw [length_vertexBytes]
    omega
  obtain ⟨hgood₁, hext₁, hposition⟩ := h.pushArray hlen 34962 (positionAccessor num mesh.positions)
  obtain ⟨hgood₂, hext₂, hnormals, hnoNormals⟩ :=
    pushNormals_spec num hgood₁ mesh.normals mesh.positions.length
  obtain ⟨hgood₃, hext₃, hindices, hnoIndices⟩ := pushIndices_spec hgood₂ mesh.indices
  have hmeshes := (pushIndices_gltfMeshes hgood₂ mesh.indices).trans
    (pushNormals_gltfMeshes mesh.normals mesh.positions.length _)
  have hext₄ := Layout.extends_pushPrimitive s.accessors.length
    (pushNormals num mesh.normals mesh.positions.length
      (s.pushArray (vertexBytes num mesh.positions) 34962 (positionAccessor num mesh.positions))).2
    (pushIndices mesh.indices (pushNormals num mesh.normals mesh.positions.length
      (s.pushArray (vertexBytes num mesh.positions) 34962 (positionAccessor num mesh.positions))).1).2
    (meshMaterial num mesh.color)
    (pushIndices mesh.indices (pushNormals num mesh.normals mesh.positions.length
      (s.pushArray (vertexBytes num mesh.positions) 34962 (positionAccessor num mesh.positions))).1).1
  refine ⟨hgood₃.pushPrimitive _ _ _ _, hext₁.trans (hext₂.trans (hext₃.trans hext₄)), _, congrArg (· ++ _) hmeshes,
    ?_, fun ns hns => ?_, hnoNormals, fun is his => ?_, hnoIndices, ?_⟩
  · exact hposition.mono (hext₂.trans (hext₃.trans hext₄))
  · obtain ⟨i, hi, hholds⟩ := hnormals ns hns
    exact ⟨i, hi, hholds.mono (hext₃.trans hext₄)⟩
  · obtain ⟨i, hi, hholds⟩ := hindices is his
    exact ⟨i, hi, hholds.mono hext₄⟩
  · exact List.getElem?_concat_length

theorem Layout.good_empty : (Layout.empty : Layout F).Good where
  offset := rfl
  aligned := rfl
  viewAligned v hv := by cases hv
  within v hv := by cases hv
  apart := List.Pairwise.nil

variable (num) in
/-- **The loop describes every mesh.** -/
theorem layout_spec (meshes : List (Mesh F)) :
    (layout num meshes).Good ∧
      List.Forall₂ ((layout num meshes).Describes num) (layout num meshes).gltfMeshes meshes := by
  have hfold : ∀ (rest done : List (Mesh F)) (s : Layout F), s.Good →
      List.Forall₂ (s.Describes num) s.gltfMeshes done →
      (rest.foldl (pushMesh num) s).Good ∧
        List.Forall₂ ((rest.foldl (pushMesh num) s).Describes num) (rest.foldl (pushMesh num) s).gltfMeshes
          (done ++ rest) := by
    intro rest
    induction rest with
    | nil =>
      intro done s hgood hdone
      rw [List.append_nil]
      exact ⟨hgood, hdone⟩
    | cons mesh rest ih =>
      intro done s hgood hdone
      obtain ⟨hgood', hext, p, hp, hdescribes⟩ := pushMesh_spec num hgood mesh
      have hold : List.Forall₂ ((pushMesh num s mesh).Describes num) s.gltfMeshes done :=
        hdone.imp fun _ _ h => h.mono hext
      have hnew : List.Forall₂ ((pushMesh num s mesh).Describes num) (pushMesh num s mesh).gltfMeshes
          (done ++ [mesh]) := by
        rw [hp]
        exact List.rel_append hold (.cons hdescribes .nil)
      rw [List.foldl_cons, List.append_cons]
      exact ih (done ++ [mesh]) _ hgood' hnew
  exact hfold meshes [] Layout.empty Layout.good_empty .nil

/-! ## The binary chunk -/

/-- A size that could be allocated is a multiple of four, at most three above. -/
theorem alloc_align4 {n : Nat} {fill : UInt8} {buf : List UInt8} (h : alloc (align4 n) fill = some buf) :
    buf = List.replicate buf.length fill ∧ buf.length % 4 = 0 ∧ buf.length ≤ n + 3 := by
  unfold alloc at h
  split at h
  case isTrue => cases h
  case isFalse hsize =>
    obtain rfl := Option.some.inj h
    rw [List.length_replicate]
    refine ⟨rfl, ?_, ?_⟩
    · unfold align4 at hsize ⊢
      dsimp only at hsize ⊢
      split at hsize
      all_goals omega
    · unfold align4
      dsimp only
      split
      all_goals omega

/-- Below two to the thirty-first nothing wraps. -/
theorem align4_eq {n : Nat} (h : n + 3 < 2147483648) : align4 n = ((n + 3) / 4 * 4 : Nat) := by
  unfold align4
  dsimp only
  split
  all_goals omega

/-- What is allocated then. -/
theorem alloc_of_lt {n : Nat} (h : n + 3 < 2147483648) (fill : UInt8) :
    alloc (align4 n) fill = some (List.replicate ((n + 3) / 4 * 4) fill) := by
  rw [align4_eq h, alloc, if_neg (by omega), Int.toNat_natCast]

/-- **The parts stand one behind the other**, and behind them the fill. -/
theorem setParts_eq {parts : List (List UInt8)} {done buf bin : List UInt8}
    (h : setParts parts done.length (done ++ buf) = some bin) :
    parts.flatten.length ≤ buf.length ∧ bin = done ++ parts.flatten ++ buf.drop parts.flatten.length := by
  induction parts generalizing done buf with
  | nil =>
    cases h
    simp
  | cons part parts ih =>
    unfold setParts setPart at h
    split at h
    case isFalse => cases h
    case isTrue hfits =>
      rw [List.length_append] at hfits
      have hlen : part.length ≤ buf.length := by omega
      have hset : (done ++ buf).take done.length ++ part ++ (done ++ buf).drop (done.length + part.length) =
          (done ++ part) ++ buf.drop part.length := by
        rw [List.take_left, List.drop_append, List.drop_eq_nil_of_le (Nat.le_add_right _ _), Nat.add_sub_cancel_left,
          List.nil_append]
      rw [Option.bind_some, hset, ← List.length_append] at h
      obtain ⟨hle, hbin⟩ := ih h
      rw [List.length_drop] at hle
      rw [List.flatten_cons, List.length_append]
      refine ⟨by omega, ?_⟩
      rw [hbin, List.drop_drop, List.append_assoc, List.append_assoc, List.append_assoc, List.append_assoc]

theorem setParts_zero {parts : List (List UInt8)} {buf bin : List UInt8} (h : setParts parts 0 buf = some bin) :
    parts.flatten.length ≤ buf.length ∧ bin = parts.flatten ++ buf.drop parts.flatten.length :=
  @setParts_eq parts [] buf bin h

/-- The reader finds what is held, in a buffer that begins with the bytes. -/
theorem Layout.Holds.read (hgood : s.Good) {i : Nat} {bytes rest : List UInt8} {mk : Nat → Accessor F}
    (h : s.Holds i bytes mk) {n : Nat} (hn : s.bytes.length ≤ n)
    (hsize : ∀ view, (mk view).bufferView = view ∧ (mk view).count * (mk view).type.size = bytes.length) :
    (s.gltf n).read (s.bytes ++ rest) i = some bytes := by
  obtain ⟨view, v, ha, hv, hlen, hin, hread⟩ := h
  obtain ⟨hview, hcount⟩ := hsize view
  have haligned := hgood.viewAligned v (List.mem_of_getElem? hv)
  have hdrop : v.byteOffset ≤ s.bytes.length := by omega
  have htake : v.byteLength ≤ (s.bytes.drop v.byteOffset).length := by
    rw [List.length_drop]
    omega
  unfold Gltf.read
  have ha' : (s.gltf n).accessors[i]? = some (mk view) := ha
  have hv' : (s.gltf n).bufferViews[(mk view).bufferView]? = some v := by
    rw [hview]
    exact hv
  rw [ha', Option.bind_eq_bind, Option.bind_some, hv', Option.bind_eq_bind, Option.bind_some, hcount]
  have hok : v.byteOffset % 4 = 0 ∧ bytes.length ≤ v.byteLength ∧
      v.byteOffset + v.byteLength ≤ (s.gltf n).bufferLength := by
    refine ⟨haligned, Nat.le_of_eq hlen.symm, ?_⟩
    change v.byteOffset + v.byteLength ≤ n
    omega
  dsimp only
  rw [if_pos hok, List.drop_append_of_le_length hdrop, ← hlen, List.take_append_of_le_length htake, hread]
  rfl

/-- **What is described can be read.** -/
theorem Layout.Describes.reads {p : Primitive} (hgood : s.Good) (h : s.Describes num p mesh) {n : Nat}
    (hn : s.bytes.length ≤ n) (rest : List UInt8) : (s.gltf n).Reads num (s.bytes ++ rest) p mesh where
  positions := h.position.read hgood hn fun view => ⟨rfl, (length_vertexBytes num mesh.positions).symm⟩
  box := by
    obtain ⟨view, v, ha, -⟩ := h.position
    exact ⟨view, ha⟩
  normals ns hns hlen := by
    obtain ⟨i, hi, hholds⟩ := h.normal ns hns
    rw [hi, Option.bind_some]
    refine hholds.read hgood hn fun view => ⟨rfl, ?_⟩
    rw [length_vertexBytes, hlen]
    rfl
  noNormals := h.noNormal
  indices := by
    cases his : mesh.indices with
    | none => rw [h.noIndices his, Option.bind_none, Option.map_none]
    | some is =>
      obtain ⟨i, hi, hholds⟩ := h.indices is his
      rw [hi, Option.bind_some, Option.map_some]
      exact hholds.read hgood hn fun view => ⟨rfl, (length_indexBytes is).symm⟩
  noIndices := h.noIndices
  material := h.material

/-! ## The container -/

theorem length_uint32LE (n : Nat) : (uint32LE n).length = 4 := rfl

theorem readUInt32_uint32LE {n : Nat} (h : n < 4294967296) (rest : List UInt8) :
    readUInt32 (uint32LE n ++ rest) = some (n, rest) := by
  simp only [uint32LE, List.cons_append, List.nil_append, readUInt32, UInt8.toNat_ofNat']
  refine congrArg some (Prod.ext ?_ rfl)
  dsimp only
  omega

theorem readChunk_eq {type : Nat} (htype : type < 4294967296) {data : List UInt8} (rest : List UInt8)
    (hlen : data.length < 4294967296) (haligned : data.length % 4 = 0) :
    readChunk type (uint32LE data.length ++ (uint32LE type ++ (data ++ rest))) = some (data, rest) := by
  have hle : data.length ≤ (data ++ rest).length := by
    rw [List.length_append]
    omega
  unfold readChunk
  rw [readUInt32_uint32LE hlen, Option.bind_eq_bind, Option.bind_some]
  dsimp only
  rw [readUInt32_uint32LE htype, Option.bind_some]
  dsimp only
  rw [if_pos ⟨rfl, haligned, hle⟩, List.take_left, List.drop_left]
  rfl

theorem writeUInt32LE_eq_some {n : Nat} {bytes : List UInt8} (h : writeUInt32LE n = some bytes) :
    n < 4294967296 ∧ bytes = uint32LE n := by
  unfold writeUInt32LE at h
  split at h
  case isTrue hlt =>
    cases h
    exact ⟨hlt, rfl⟩
  case isFalse => cases h

theorem magicWord_lt : magicWord < 4294967296 := by decide

theorem jsonType_lt : jsonType < 4294967296 := by decide

theorem binType_lt : binType < 4294967296 := by decide

/-- What was assembled: a header with the length of the file, and the two chunks. -/
theorem assemble_eq_some {json bin file : List UInt8} (h : assemble json bin = some file) :
    file.length < 4294967296 ∧ file = uint32LE magicWord ++ (uint32LE 2 ++ (uint32LE file.length ++
      (uint32LE json.length ++ (uint32LE jsonType ++ (json ++
        (uint32LE bin.length ++ (uint32LE binType ++ (bin ++ [])))))))) := by
  unfold assemble at h
  obtain ⟨totalLen, htotal, h⟩ := Option.bind_eq_some_iff.mp h
  obtain ⟨jsonLen, hjsonLen, h⟩ := Option.bind_eq_some_iff.mp h
  obtain ⟨binLen, hbinLen, h⟩ := Option.bind_eq_some_iff.mp h
  obtain ⟨htotalLt, rfl⟩ := writeUInt32LE_eq_some htotal
  obtain ⟨-, rfl⟩ := writeUInt32LE_eq_some hjsonLen
  obtain ⟨-, rfl⟩ := writeUInt32LE_eq_some hbinLen
  have hfile := Option.some.inj h
  have hlength : file.length = 12 + 8 + json.length + 8 + bin.length := by
    rw [← hfile]
    simp only [List.length_append, length_uint32LE]
  rw [hlength]
  refine ⟨htotalLt, ?_⟩
  rw [← hfile]
  simp only [List.append_assoc, List.append_nil]

/-- **A file that was assembled is read as its two chunks.** -/
theorem readGlb_assemble {json bin file : List UInt8} (h : assemble json bin = some file)
    (hjson : json.length % 4 = 0) (hbin : bin.length % 4 = 0) : readGlb file = some (json, bin) := by
  obtain ⟨hlt, hfile⟩ := assemble_eq_some h
  have hlength := congrArg List.length hfile
  simp only [List.length_append, length_uint32LE] at hlength
  have hjsonLt : json.length < 4294967296 := by omega
  have hbinLt : bin.length < 4294967296 := by omega
  have hjsonChunk := readChunk_eq jsonType_lt (uint32LE bin.length ++ (uint32LE binType ++ (bin ++ []))) hjsonLt hjson
  have hbinChunk := readChunk_eq binType_lt [] hbinLt hbin
  generalize hn : file.length = n at hfile hlt
  unfold readGlb
  rw [hn, hfile, readUInt32_uint32LE magicWord_lt, Option.bind_eq_bind, Option.bind_some]
  dsimp only
  rw [readUInt32_uint32LE (by omega), Option.bind_some]
  dsimp only
  rw [readUInt32_uint32LE hlt, Option.bind_some]
  dsimp only
  have hheader : magicWord = magicWord ∧ 2 = 2 ∧ n = n := ⟨rfl, rfl, rfl⟩
  rw [if_pos hheader, hjsonChunk, Option.bind_eq_bind, Option.bind_some]
  dsimp only
  rw [hbinChunk, Option.bind_some]
  dsimp only
  rw [if_pos rfl, Option.pure_def]

/-! ## The whole file -/

/-- Four bytes at most for a character. -/
theorem length_utf8_le (text : String) : (utf8 text).length ≤ text.length * 4 := by
  rw [utf8, ← String.length_toList]
  induction text.toList with
  | nil => exact Nat.zero_le _
  | cons c cs ih =>
    rw [List.flatMap_cons, List.length_append, String.length_utf8EncodeChar, List.length_cons]
    have hc := c.utf8Size_le_four
    omega

/-- The text of the description is never cut: its buffer is large enough. -/
theorem jsonBytes_padded {g : Gltf F} {bytes blanks : List UInt8} (hbytes : jsonBytes num g = some bytes)
    (hblanks : alloc (align4 bytes.length) 0x20 = some blanks) :
    bytes = utf8 (g.json num) ∧ (copyInto bytes blanks).length % 4 = 0 ∧
      ∃ n, n < 4 ∧ copyInto bytes blanks = utf8 (g.json num) ++ List.replicate n 0x20 := by
  unfold jsonBytes at hbytes
  split at hbytes
  case isFalse => cases hbytes
  case isTrue hle =>
    obtain rfl := Option.some.inj hbytes
    have hlen := length_utf8_le (g.json num)
    have hsmall : (utf8 (g.json num)).length + 3 < 2147483648 := by
      unfold maxStringLength at hle
      omega
    rw [alloc_of_lt hsmall] at hblanks
    obtain rfl := Option.some.inj hblanks
    have hfits : (utf8 (g.json num)).length ≤ ((utf8 (g.json num)).length + 3) / 4 * 4 := by omega
    have hpadded : copyInto (utf8 (g.json num)) (List.replicate (((utf8 (g.json num)).length + 3) / 4 * 4) 0x20) =
        utf8 (g.json num) ++
          List.replicate (((utf8 (g.json num)).length + 3) / 4 * 4 - (utf8 (g.json num)).length) 0x20 := by
      rw [copyInto, List.length_replicate, List.take_of_length_le hfits, List.drop_replicate]
    refine ⟨rfl, ?_, _, ?_, hpadded⟩
    · rw [hpadded, List.length_append, List.length_replicate]
      omega
    · omega

/-- What has to hold for a file to be made. -/
theorem buildGlb_eq_some {meshes : List (Mesh F)} {file : List UInt8} (h : buildGlb num meshes = some file) :
    ∃ zeros bin bytes blanks, alloc (align4 (layout num meshes).byteOffset) 0 = some zeros ∧
      setParts (layout num meshes).bufParts 0 zeros = some bin ∧
      jsonBytes num ((layout num meshes).gltf zeros.length) = some bytes ∧
      alloc (align4 bytes.length) 0x20 = some blanks ∧ assemble (copyInto bytes blanks) bin = some file := by
  unfold buildGlb at h
  obtain ⟨zeros, hzeros, h⟩ := Option.bind_eq_some_iff.mp h
  obtain ⟨bin, hbin, h⟩ := Option.bind_eq_some_iff.mp h
  obtain ⟨bytes, hbytes, h⟩ := Option.bind_eq_some_iff.mp h
  obtain ⟨blanks, hblanks, h⟩ := Option.bind_eq_some_iff.mp h
  exact ⟨zeros, bin, bytes, blanks, hzeros, hbin, hbytes, hblanks, h⟩

/-! ## When a file is made -/

/-- The bytes of the arrays of a mesh. -/
def Mesh.byteLength (mesh : Mesh F) : Nat :=
  mesh.positions.length * 12 + (mesh.normals.elim 0 fun ns => ns.length * 12) +
    mesh.indices.elim 0 fun is => is.length * 4

/-- The bytes of all arrays. -/
def arrayBytes : List (Mesh F) → Nat
  | [] => 0
  | mesh :: meshes => mesh.byteLength + arrayBytes meshes

theorem byteOffset_pushNormals (normals : Option (List (Vertex F))) (n : Nat) (s : Layout F) :
    (pushNormals num normals n s).1.byteOffset = s.byteOffset + normals.elim 0 fun ns => ns.length * 12 := by
  cases normals with
  | none => rfl
  | some ns => exact congrArg (s.byteOffset + ·) (length_vertexBytes num ns)

theorem byteOffset_pushIndices (h : s.Good) (indices : Option (List UInt32)) :
    (pushIndices indices s).1.byteOffset = s.byteOffset + indices.elim 0 fun is => is.length * 4 := by
  cases indices with
  | none => rfl
  | some is =>
    rw [pushIndices, h.padTo4]
    exact congrArg (s.byteOffset + ·) (length_indexBytes is)

theorem byteOffset_pushMesh (h : s.Good) (mesh : Mesh F) :
    (pushMesh num s mesh).byteOffset = s.byteOffset + mesh.byteLength := by
  have hlen := length_vertexBytes num mesh.positions
  have hmod : (vertexBytes num mesh.positions).length % 4 = 0 := by omega
  obtain ⟨hgood₁, -⟩ := h.pushArray hmod 34962 (positionAccessor num mesh.positions)
  obtain ⟨hgood₂, -⟩ := pushNormals_spec num hgood₁ mesh.normals mesh.positions.length
  have hindices := byteOffset_pushIndices hgood₂ mesh.indices
  rw [byteOffset_pushNormals] at hindices
  refine hindices.trans ?_
  have hpositions : (s.pushArray (vertexBytes num mesh.positions) 34962
      (positionAccessor num mesh.positions)).byteOffset = s.byteOffset + (vertexBytes num mesh.positions).length := rfl
  rw [hpositions, hlen, Mesh.byteLength]
  omega

variable (num) in
/-- The loop counts the bytes of the arrays, and pads nothing. -/
theorem byteOffset_layout (meshes : List (Mesh F)) : (layout num meshes).byteOffset = arrayBytes meshes := by
  have hfold : ∀ (meshes : List (Mesh F)) (s : Layout F), s.Good →
      (meshes.foldl (pushMesh num) s).byteOffset = s.byteOffset + arrayBytes meshes := by
    intro meshes
    induction meshes with
    | nil => exact fun _ _ => rfl
    | cons mesh meshes ih =>
      intro s hgood
      rw [List.foldl_cons, ih _ (pushMesh_spec num hgood mesh).1, byteOffset_pushMesh hgood, arrayBytes]
      omega
  exact (hfold meshes _ Layout.good_empty).trans (Nat.zero_add _)

theorem setParts_of_le {parts : List (List UInt8)} {off : Nat} {buf : List UInt8}
    (h : off + parts.flatten.length ≤ buf.length) : (setParts parts off buf).isSome := by
  induction parts generalizing off buf with
  | nil => rfl
  | cons part parts ih =>
    rw [List.flatten_cons, List.length_append] at h
    have hfits : off + part.length ≤ buf.length := by omega
    rw [setParts, setPart, if_pos hfits, Option.bind_some]
    refine ih ?_
    simp only [List.length_append, List.length_take, List.length_drop]
    omega

theorem length_copyInto {src buf : List UInt8} (h : src.length ≤ buf.length) :
    (copyInto src buf).length = buf.length := by
  rw [copyInto, List.length_append, List.length_take, List.length_drop]
  omega

theorem writeUInt32LE_of_lt {n : Nat} (h : n < 4294967296) : writeUInt32LE n = some (uint32LE n) := if_pos h

theorem assemble_of_lt {json bin : List UInt8} (h : 12 + 8 + json.length + 8 + bin.length < 4294967296) :
    (assemble json bin).isSome := by
  have hjson : json.length < 4294967296 := by omega
  have hbin : bin.length < 4294967296 := by omega
  rw [assemble, writeUInt32LE_of_lt h, writeUInt32LE_of_lt hjson, writeUInt32LE_of_lt hbin]
  rfl

/-- A buffer that takes all arrays was asked for without a wrap. -/
theorem lt_of_alloc_align4 {n : Nat} {buf : List UInt8} (h : alloc (align4 n) 0 = some buf) (hle : n ≤ buf.length) :
    n + 3 < 2147483648 := by
  unfold alloc at h
  split at h
  case isTrue => cases h
  case isFalse hsize =>
    have hlength := congrArg List.length (Option.some.inj h)
    rw [List.length_replicate] at hlength
    unfold align4 at hsize hlength
    dsimp only at hsize hlength
    split at hsize
    case isTrue hlt =>
      rw [if_pos hlt] at hlength
      omega
    case isFalse hge =>
      omega

/-- **Main result.** A file is made exactly when the arrays of all meshes have less than two gigabytes, up to
the last three bytes, and the description is a string the engine can hold. Past either of the two the writer
throws, and makes no file that is cut or has a wrapped length. -/
theorem buildGlb_isSome_iff (meshes : List (Mesh F)) :
    (buildGlb num meshes).isSome ↔ arrayBytes meshes + 3 < 2147483648 ∧
      (((layout num meshes).gltf (arrayBytes meshes)).json num).length ≤ maxStringLength := by
  obtain ⟨hgood, -⟩ := layout_spec num meshes
  have hbytes := byteOffset_layout num meshes
  have hflatten : (layout num meshes).bufParts.flatten.length = arrayBytes meshes := hgood.offset.symm.trans hbytes
  have haligned : arrayBytes meshes % 4 = 0 := by
    rw [← hbytes]
    exact hgood.aligned
  have hsize : (arrayBytes meshes + 3) / 4 * 4 = arrayBytes meshes := by omega
  constructor
  · intro h
    obtain ⟨file, hfile⟩ := Option.isSome_iff_exists.mp h
    obtain ⟨zeros, bin, bytes, blanks, hzeros, hbin, hjson, -, -⟩ := buildGlb_eq_some hfile
    obtain ⟨hfits, -⟩ := setParts_zero hbin
    rw [hbytes] at hzeros
    have hlt := lt_of_alloc_align4 hzeros (by omega)
    rw [alloc_of_lt hlt, hsize] at hzeros
    obtain rfl := Option.some.inj hzeros
    rw [List.length_replicate] at hjson
    refine ⟨hlt, ?_⟩
    by_contra hlong
    rw [jsonBytes, if_neg hlong] at hjson
    cases hjson
  · rintro ⟨hlt, hlong⟩
    have hparts : (setParts (layout num meshes).bufParts 0 (List.replicate (arrayBytes meshes) 0)).isSome := by
      refine setParts_of_le (Nat.le_of_eq ?_)
      rw [List.length_replicate, hflatten, Nat.zero_add]
    obtain ⟨bin, hbin⟩ := Option.isSome_iff_exists.mp hparts
    have hbinLength : bin.length = arrayBytes meshes := by
      obtain ⟨hfits, hbinEq⟩ := setParts_zero hbin
      rw [List.length_replicate] at hfits
      rw [hbinEq]
      simp only [List.length_append, List.length_drop, List.length_replicate]
      omega
    have hlen := length_utf8_le (((layout num meshes).gltf (arrayBytes meshes)).json num)
    have hjson : jsonBytes num ((layout num meshes).gltf (arrayBytes meshes)) = some _ := if_pos hlong
    unfold maxStringLength at hlong
    generalize hg : (layout num meshes).gltf (arrayBytes meshes) = g at hjson hlen hlong
    have hblanks := alloc_of_lt (n := (utf8 (g.json num)).length) (by omega) 0x20
    have hfits : (utf8 (g.json num)).length ≤
        (List.replicate (((utf8 (g.json num)).length + 3) / 4 * 4) (0x20 : UInt8)).length := by
      rw [List.length_replicate]
      omega
    have hcopied := length_copyInto hfits
    rw [List.length_replicate] at hcopied
    unfold buildGlb
    dsimp only
    rw [hbytes, alloc_of_lt hlt, hsize, Option.bind_eq_bind, Option.bind_some, hbin, Option.bind_some,
      List.length_replicate, hg, hjson, Option.bind_some, hblanks, Option.bind_some]
    refine assemble_of_lt ?_
    rw [hcopied, hbinLength]
    omega

end Writer

/-! ## A triangle -/

/-- Numbers with three digits behind the point, for tests. -/
inductive Thousandths
  | negInfinity
  | fin (n : Nat)
  | infinity
  deriving DecidableEq

def Thousandths.lt : Thousandths → Thousandths → Bool
  | .negInfinity, .negInfinity => false
  | .negInfinity, _ => true
  | .fin m, .fin n => m < n
  | .fin _, .infinity => true
  | _, _ => false

/-- Digits behind the point, without the zeros at the end. -/
def Thousandths.fraction (n : Nat) : String :=
  if n % 1000 = 0 then ""
  else if n % 100 = 0 then "." ++ toString (n / 100 % 10)
  else if n % 10 = 0 then "." ++ toString (n / 100 % 10) ++ toString (n / 10 % 10)
  else "." ++ toString (n / 100 % 10) ++ toString (n / 10 % 10) ++ toString (n % 10)

def Thousandths.text : Thousandths → String
  | .fin n => toString (n / 1000) ++ Thousandths.fraction n
  | _ => "null"

/-- The bytes of zero, one and two, the coordinates below. -/
def Thousandths.float32 : Thousandths → Vector UInt8 4
  | .fin 1000 => #v[0, 0, 128, 63]
  | .fin 2000 => #v[0, 0, 0, 64]
  | _ => #v[0, 0, 0, 0]

def thousandths : Numbers Thousandths where
  literal digits scale := .fin (if scale = 1 then digits * 100 else if scale = 3 then digits else digits * 1000)
  lt := Thousandths.lt
  infinity := .infinity
  negInfinity := .negInfinity
  float32 := Thousandths.float32
  text := Thousandths.text

def triangle : Mesh Thousandths where
  positions := [(.fin 0, .fin 0, .fin 0), (.fin 2000, .fin 0, .fin 0), (.fin 0, .fin 1000, .fin 0)]
  normals := some [(.fin 0, .fin 0, .fin 1000), (.fin 0, .fin 0, .fin 1000), (.fin 0, .fin 0, .fin 1000)]
  indices := some [0, 1, 2]
  color := none

/-- The description of two triangles. -/
theorem gltf_triangles : (layout thousandths [triangle, triangle]).gltf 168 =
    { meshes := [⟨0, some 1, some 2, 0⟩, ⟨3, some 4, some 5, 1⟩]
      materials := List.replicate 2 (meshMaterial thousandths none)
      accessors := [positionAccessor thousandths triangle.positions 0, normalAccessor 3 1, indexAccessor 3 2,
        positionAccessor thousandths triangle.positions 3, normalAccessor 3 4, indexAccessor 3 5]
      bufferViews := [⟨0, 36, 34962⟩, ⟨36, 36, 34962⟩, ⟨72, 12, 34963⟩, ⟨84, 36, 34962⟩, ⟨120, 36, 34962⟩,
        ⟨156, 12, 34963⟩]
      bufferLength := 168 } := by decide +kernel

theorem arrayBytes_triangles : arrayBytes [triangle, triangle] = 168 := by decide

theorem maxStringLength_ge : 3000 ≤ maxStringLength := by
  unfold maxStringLength
  omega

/-- Their file is made: the description has less than three thousand characters. -/
theorem triangles_isSome : (buildGlb thousandths [triangle, triangle]).isSome := by
  rw [buildGlb_isSome_iff, arrayBytes_triangles, gltf_triangles]
  refine ⟨by omega, Nat.le_trans ?_ maxStringLength_ge⟩
  simp only [Gltf.json, Primitive.json, Material.json, Accessor.json, AccessorType.json, BufferView.json, jsonVertex,
    jsonArray, jsonElements, jsonObject, meshMaterial, positionAccessor, normalAccessor, indexAccessor,
    String.length_append, List.map, List.filterMap, List.range, List.range.loop, List.replicate, List.length,
    Option.map]
  decide +kernel

/-! ## The file is read back -/

/-- **Main result.** A file that is made reads as its description and its buffer. The description stands in
the JSON chunk with blanks behind it. It names the length of the buffer, its views do not overlap, and its
primitives stand for the meshes one by one: the accessors read as the arrays the mesh came with. -/
theorem buildGlb_reads {F : Type} {num : Numbers F} {meshes : List (Mesh F)} {file : List UInt8}
    (h : buildGlb num meshes = some file) :
    ∃ (g : Gltf F) (blanks : Nat) (bin : List UInt8),
      readGlb file = some (utf8 (g.json num) ++ List.replicate blanks 0x20, bin) ∧ blanks < 4 ∧
        g.bufferLength = bin.length ∧ ViewsApart g.bufferViews ∧ List.Forall₂ (g.Reads num bin) g.meshes meshes := by
  obtain ⟨zeros, bin, bytes, blanks, hzeros, hbin, hbytes, hblanks, hfile⟩ := buildGlb_eq_some h
  obtain ⟨hgood, hmeshes⟩ := layout_spec num meshes
  obtain ⟨hjson, hjsonAligned, n, hn, hpadded⟩ := jsonBytes_padded hbytes hblanks
  obtain ⟨-, hzerosAligned, -⟩ := alloc_align4 hzeros
  obtain ⟨hfits, hbinEq⟩ := setParts_zero hbin
  have hbinLength : bin.length = zeros.length := by
    rw [hbinEq, List.length_append, List.length_drop]
    omega
  have hread := readGlb_assemble hfile hjsonAligned (by omega)
  rw [hpadded] at hread
  refine ⟨(layout num meshes).gltf zeros.length, n, bin, hread, hn, hbinLength.symm, hgood.apart, ?_⟩
  rw [hbinEq]
  exact hmeshes.imp fun _ _ hp => hp.reads hgood hfits _

theorem buildGlb_reads_triangles :
    ∃ (g : Gltf Thousandths) (blanks : Nat) (bin : List UInt8),
      readGlb ((buildGlb thousandths [triangle, triangle]).get triangles_isSome) =
          some (utf8 (g.json thousandths) ++ List.replicate blanks 0x20, bin) ∧ blanks < 4 ∧
        g.bufferLength = bin.length ∧ ViewsApart g.bufferViews ∧
        List.Forall₂ (g.Reads thousandths bin) g.meshes [triangle, triangle] :=
  buildGlb_reads (Option.some_get triangles_isSome).symm

end PlmCore.CadParser.GlbWriter
