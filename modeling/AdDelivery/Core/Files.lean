import AdDelivery.Core.Table

/-!
# Files of blocks

Tables are saved one after another, each as the image of one container behind
its length. A file is the list of these images. How a container becomes an image
is left open; all that is asked of it is that nothing is lost.
-/

namespace AdDelivery

/-- A lossless serialisation of one container type. -/
structure Codec (Image α : Type*) where
  write : α → Image
  read : Image → α
  read_write : ∀ a, read (write a) = a

namespace Codec

variable {Image α : Type*}

/-- Read the next block of a file; a file that is at its end has none. -/
def readBlock (codec : Codec Image α) : List Image → Option (α × List Image)
  | [] => none
  | image :: file => some (codec.read image, file)

@[simp] theorem readBlock_write (codec : Codec Image α) (a : α) (file : List Image) :
    codec.readBlock (codec.write a :: file) = some (a, file) := by
  rw [readBlock, codec.read_write]

end Codec

/-- A bit set as text, its highest bit first. -/
def bitsToString (bits : List Bool) : String :=
  String.ofList (bits.reverse.map fun bit => if bit then '1' else '0')

/-- The bit set that such a text denotes. -/
def bitsOfString (text : String) : List Bool := (text.toList.map (· == '1')).reverse

@[simp] theorem bitsOfString_bitsToString (bits : List Bool) :
    bitsOfString (bitsToString bits) = bits := by
  have hbit : ((· == '1') ∘ fun bit => if bit then '1' else '0') = (id : Bool → Bool) := by
    funext bit
    cases bit <;> rfl
  rw [bitsOfString, bitsToString, String.toList_ofList, List.map_map, hbit, List.map_id,
    List.reverse_reverse]

end AdDelivery
