import BootAssembly.BootImage.Layout

namespace BootAssembly.BootImage

structure Block (page : Nat) where
  bytes : Bytes
  padding : Bytes
  whole : page ∣ bytes.length + padding.length
  tight : padding.length < page

namespace Block

variable {page : Nat} (b : Block page)

def room : Nat := b.bytes.length + b.padding.length

def padded : Bytes := b.bytes ++ b.padding

@[simp] theorem length_padded : b.padded.length = b.room := List.length_append

theorem length_bytes_le : b.bytes.length ≤ b.room := Nat.le_add_right _ _

def zeroFilled (hpage : 0 < page) (bytes : Bytes) : Block page where
  bytes := bytes
  padding := List.replicate ((page - bytes.length % page) % page) 0
  whole := by
    have hlt := Nat.mod_lt bytes.length hpage
    have hdiv := Nat.div_add_mod bytes.length page
    have hsum : bytes.length + (page - bytes.length % page) =
        page * (bytes.length / page) + page := by omega
    rw [List.length_replicate, Nat.dvd_iff_mod_eq_zero, Nat.add_mod_mod, hsum, Nat.mul_add_mod,
      Nat.mod_self]
  tight := by
    rw [List.length_replicate]
    exact Nat.mod_lt _ hpage

end Block

structure Parts where
  pageSize : UInt32
  kernelAddr : UInt32
  ramdiskAddr : UInt32
  secondAddr : UInt32
  tagsAddr : UInt32
  unused : UInt32
  name : Bytes
  arguments : Bytes
  id : Bytes
  headerPadding : Bytes
  kernel : Block pageSize.toNat
  ramdisk : Block pageSize.toNat
  second : Block pageSize.toNat
  deviceTree : Block pageSize.toNat
  name_length : name.length = nameSize
  arguments_length : arguments.length = argumentsSize
  id_length : id.length = 32
  header_page : headerSize + headerPadding.length = pageSize.toNat

namespace Parts

variable (p : Parts)

def header : Header where
  kernelSize := .ofNat p.kernel.bytes.length
  kernelAddr := p.kernelAddr
  ramdiskSize := .ofNat p.ramdisk.bytes.length
  ramdiskAddr := p.ramdiskAddr
  secondSize := .ofNat p.second.bytes.length
  secondAddr := p.secondAddr
  tagsAddr := p.tagsAddr
  pageSize := p.pageSize
  deviceTreeSize := .ofNat p.deviceTree.bytes.length
  name := p.name
  arguments := p.arguments

def words : List UInt32 :=
  [p.header.kernelSize, p.kernelAddr, p.header.ramdiskSize, p.ramdiskAddr, p.header.secondSize,
    p.secondAddr, p.tagsAddr, p.pageSize, p.header.deviceTreeSize, p.unused]

def headerPage : Bytes :=
  magic ++ (ofWords p.words ++ (p.name ++ (p.arguments ++ (p.id ++ p.headerPadding))))

def image : Bytes :=
  p.headerPage ++ (p.kernel.padded ++ (p.ramdisk.padded ++ (p.second.padded ++ p.deviceTree.padded)))

def ramdiskOffset : Nat := p.pageSize.toNat + p.kernel.room

def secondOffset : Nat := p.ramdiskOffset + p.ramdisk.room

def treeOffset : Nat := p.secondOffset + p.second.room

def size : Nat := p.treeOffset + p.deviceTree.room

def layout : Layout where
  pageSize := p.pageSize
  kernel := ⟨p.pageSize, p.header.kernelSize, .ofNat p.kernel.room⟩
  ramdisk := ⟨.ofNat p.ramdiskOffset, p.header.ramdiskSize, .ofNat p.ramdisk.room⟩
  second := ⟨.ofNat p.secondOffset, p.header.secondSize, .ofNat p.second.room⟩
  deviceTree := ⟨.ofNat p.treeOffset, p.header.deviceTreeSize, .ofNat p.deviceTree.room⟩
  imageSize := .ofNat p.size

@[simp] theorem length_headerPage : p.headerPage.length = p.pageSize.toNat := by
  have hmagic : magic.length = 8 := by decide +kernel
  have hwords : p.words.length = 10 := rfl
  have hpage := p.header_page
  simp only [headerPage, List.length_append, length_ofWords, hmagic, hwords, p.name_length,
    p.arguments_length, p.id_length]
  simp only [headerSize, nameSize, argumentsSize] at hpage ⊢
  omega

theorem length_image : p.image.length = p.size := by
  simp only [image, List.length_append, length_headerPage, Block.length_padded, size, treeOffset,
    secondOffset, ramdiskOffset]
  omega

theorem headerSize_le_length (rest : Bytes) : headerSize ≤ (p.image ++ rest).length := by
  have hpage := p.header_page
  simp only [List.length_append, length_image, size, treeOffset, secondOffset, ramdiskOffset]
  omega

end Parts

end BootAssembly.BootImage
